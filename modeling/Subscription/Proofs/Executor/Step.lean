import Subscription.Proofs.Executor.Change

/-!
What the executor does, step by step. A step of a change adds a warning or is one call to the handler,
and the handler is called for a service only when nothing stands against it: `Ready` says what that
means. A whole change is a sequence of steps that stay below the service they start from, and it ends
with that service changed, with a failure that counts against the name that was asked for, or with a
handler that breaks down. Everything that steps preserve, changes preserve.
-/

namespace Subscription

def Handler.Raises (h : Handler) (f : Fault) : Prop :=
  ∃ past call text, h.respond past call = .raised text ∧ f = .raised text

namespace Executor

variable {x : Setting} {action : ServiceAction} {scope scope' : Text → Prop} {who : Text}
  {p q r : Progress}

/-- Nothing stands against changing a service. -/
structure Ready (x : Setting) (action : ServiceAction) (s : Service) (enabled : List Text) :
    Prop where
  known : x.catalog.find? s.name = some s
  accepted : refusal? x action s enabled = none
  clear : ∀ n ∈ x.catalog.before action s.name, pending action enabled n = false

/-- One step of a change that `who` was named for, on services in a scope. -/
inductive Step (x : Setting) (action : ServiceAction) (scope : Text → Prop) (who : Text) :
    Progress → Progress → Prop
  | warned (p : Progress) (m : Message) :
      Step x action scope who p { p with tally := p.tally.addWarning (.ofService who m) }
  | raised {p : Progress} {s : Service} {text : Text} (ready : Ready x action s p.enabled)
      (inScope : scope s.name)
      (reply : x.handler.respond p.calls (x.call action s) = .raised text) :
      Step x action scope who p (p.called (x.call action s))
  | refused {p : Progress} {s : Service} {message code : Text}
      (ready : Ready x action s p.enabled) (inScope : scope s.name)
      (reply : x.handler.respond p.calls (x.call action s) = .failed message code) :
      Step x action scope who p (p.refused (x.call action s) who)
  | changed {p : Progress} {s : Service} {needsReboot : Bool} {notices : List Notice}
      (ready : Ready x action s p.enabled) (inScope : scope s.name)
      (reply : x.handler.respond p.calls (x.call action s) = .done needsReboot notices) :
      Step x action scope who p (p.changedBy (x.call action s) needsReboot notices)

abbrev Steps (x : Setting) (action : ServiceAction) (scope : Text → Prop) (who : Text) :
    Progress → Progress → Prop :=
  Relation.ReflTransGen (Step x action scope who)

/-! ### What a step preserves -/

theorem refusal?_eq_none_iff {s : Service} {enabled : List Text} :
    refusal? x action s enabled = none ↔
      x.obstacle? action s = none ∧ pending action enabled s.name = true := by
  unfold refusal?
  split
  · next m hm => simp [hm]
  · next hm => simp [hm]

theorem Ready.pending {s : Service} {enabled : List Text} (h : Ready x action s enabled) :
    pending action enabled s.name = true :=
  (refusal?_eq_none_iff.mp h.accepted).2

theorem Step.mono (h : Step x action scope who p q) (hs : ∀ n, scope n → scope' n) :
    Step x action scope' who p q := by
  cases h with
  | warned m => exact .warned p m
  | raised ready inScope reply => exact .raised ready (hs _ inScope) reply
  | refused ready inScope reply => exact .refused ready (hs _ inScope) reply
  | changed ready inScope reply => exact .changed ready (hs _ inScope) reply

theorem Step.nodup (h : Step x action scope who p q) (hp : p.enabled.Nodup) :
    q.enabled.Nodup := by
  cases h with
  | warned | raised | refused => exact hp
  | changed ready _ _ => exact nodup_applyChange hp ready.pending

theorem Step.pending_eq (h : Step x action scope who p q) (hp : p.enabled.Nodup) :
    (∀ n, pending action q.enabled n = pending action p.enabled n) ∨
      ∃ m, scope m ∧ pending action p.enabled m = true ∧ q.changed = p.changed ++ [m] ∧
        ∀ n, pending action q.enabled n = (pending action p.enabled n && decide (n ≠ m)) := by
  cases h with
  | warned | raised | refused => exact Or.inl fun _ => rfl
  | @changed s _ _ ready inScope _ =>
    exact Or.inr ⟨s.name, inScope, ready.pending, rfl, pending_applyChange hp s.name⟩

theorem Step.changed_subset (h : Step x action scope who p q) : p.changed ⊆ q.changed := by
  cases h with
  | warned | raised | refused => exact List.Subset.refl _
  | changed => exact List.subset_append_left _ _

theorem Step.errors_eq (h : Step x action scope who p q) : q.tally.errors = p.tally.errors := by
  cases h <;> rfl

theorem Step.outcomes_eq (h : Step x action scope who p q) :
    q.tally.outcomes = p.tally.outcomes := by
  cases h <;> rfl

theorem filter_mem_trans {l m k : List Text} (h : m = l.filter (· ∈ m)) (h' : k = m.filter (· ∈ k)) :
    k = l.filter (· ∈ k) := by
  have hsub : ∀ n ∈ k, n ∈ m := fun n hn => by
    rw [h'] at hn
    exact (List.mem_filter.mp hn).1
  calc k = (l.filter (· ∈ m)).filter (· ∈ k) := by rw [← h, ← h']
    _ = l.filter (· ∈ k) := by
        rw [List.filter_filter]
        exact List.filter_congr fun n _ => by simpa using hsub n

theorem Step.enabled_eq_filter (h : Step x .disable scope who p q) (hp : p.enabled.Nodup) :
    q.enabled = p.enabled.filter (· ∈ q.enabled) := by
  cases h with
  | warned | raised | refused =>
    exact (List.filter_eq_self.mpr fun n hn => by simpa using hn).symm
  | @changed s =>
    show p.enabled.erase s.name = p.enabled.filter (· ∈ p.enabled.erase s.name)
    rw [hp.erase_eq_filter]
    exact List.filter_congr fun n hn => Bool.eq_iff_iff.mpr (by simp [hn])

/-! ### What any number of steps preserve -/

namespace Steps

theorem mono (h : Steps x action scope who p q) (hs : ∀ n, scope n → scope' n) :
    Steps x action scope' who p q := by
  induction h with
  | refl => exact .refl
  | tail _ hstep ih => exact ih.tail (hstep.mono hs)

theorem nodup (h : Steps x action scope who p q) (hp : p.enabled.Nodup) : q.enabled.Nodup := by
  induction h with
  | refl => exact hp
  | tail _ hstep ih => exact hstep.nodup ih

theorem pending_of_pending (h : Steps x action scope who p q) (hp : p.enabled.Nodup) {n : Text}
    (hn : pending action q.enabled n = true) : pending action p.enabled n = true := by
  induction h with
  | refl => exact hn
  | tail hsteps hstep ih =>
    apply ih
    rcases hstep.pending_eq (Steps.nodup hsteps hp) with hsame | ⟨m, _, _, _, hpend⟩
    · rw [← hsame]
      exact hn
    · rw [hpend, Bool.and_eq_true] at hn
      exact hn.1

theorem stays (h : Steps x action scope who p q) (hp : p.enabled.Nodup) {n : Text}
    (hn : pending action p.enabled n = false) : pending action q.enabled n = false := by
  by_contra hne
  have hpend := h.pending_of_pending hp (Bool.eq_true_of_not_eq_false hne)
  exact absurd (hpend.symm.trans hn) (by decide)

theorem pending_of_not_scope (h : Steps x action scope who p q) (hp : p.enabled.Nodup) {n : Text}
    (hn : ¬scope n) : pending action q.enabled n = pending action p.enabled n := by
  induction h with
  | refl => rfl
  | tail hsteps hstep ih =>
    rw [← ih]
    rcases hstep.pending_eq (Steps.nodup hsteps hp) with hsame | ⟨m, hm, _, _, hpend⟩
    · exact hsame n
    · have hne : n ≠ m := fun e => hn (e ▸ hm)
      simp [hpend, hne]

theorem changed_subset (h : Steps x action scope who p q) : p.changed ⊆ q.changed := by
  induction h with
  | refl => exact List.Subset.refl _
  | tail _ hstep ih => exact List.Subset.trans ih hstep.changed_subset

/-- What is no longer pending is on record as changed. -/
theorem mem_changed (h : Steps x action scope who p q) (hp : p.enabled.Nodup) {n : Text}
    (hstart : pending action p.enabled n = true) (hend : pending action q.enabled n = false) :
    n ∈ q.changed := by
  induction h with
  | refl =>
    rw [hstart] at hend
    cases hend
  | tail hsteps hstep ih =>
    rcases hstep.pending_eq (Steps.nodup hsteps hp) with hsame | ⟨m, -, -, hchanged, hpend⟩
    · rw [hsame] at hend
      exact hstep.changed_subset (ih hend)
    · rw [hpend, Bool.and_eq_false_iff, decide_eq_false_iff_not, not_not] at hend
      rcases hend with hend | rfl
      · exact hstep.changed_subset (ih hend)
      · simp [hchanged]

/-- What is on record as changed was so before, or has been pending. -/
theorem pending_of_mem_changed (h : Steps x action scope who p q) (hp : p.enabled.Nodup) {n : Text}
    (hn : n ∈ q.changed) : n ∈ p.changed ∨ scope n ∧ pending action p.enabled n = true := by
  induction h with
  | refl => exact Or.inl hn
  | tail hsteps hstep ih =>
    cases hstep with
    | warned | raised | refused => exact ih hn
    | @changed s _ _ ready inScope =>
      rcases List.mem_append.mp hn with hn | hn
      · exact ih hn
      · rw [List.mem_singleton.mp hn]
        exact Or.inr ⟨inScope, Steps.pending_of_pending hsteps hp ready.pending⟩

theorem enabled_eq_filter (h : Steps x .disable scope who p q) (hp : p.enabled.Nodup) :
    q.enabled = p.enabled.filter (· ∈ q.enabled) := by
  induction h with
  | refl => exact (List.filter_eq_self.mpr fun n hn => by simpa using hn).symm
  | tail hsteps hstep ih =>
    exact filter_mem_trans ih (hstep.enabled_eq_filter (Steps.nodup hsteps hp))

theorem errors_eq (h : Steps x action scope who p q) : q.tally.errors = p.tally.errors := by
  induction h with
  | refl => rfl
  | tail _ hstep ih => rw [hstep.errors_eq, ih]

theorem outcomes_eq (h : Steps x action scope who p q) :
    q.tally.outcomes = p.tally.outcomes := by
  induction h with
  | refl => rfl
  | tail _ hstep ih => rw [hstep.outcomes_eq, ih]

end Steps

/-! ### Changes are sequences of steps -/

inductive Broken (x : Setting) (who : Text) : Except Fault (Option Entry) → Prop
  | failed (message code : Text) : Broken x who (.ok (some ⟨message, code, some who, .service⟩))
  | raised {f : Fault} (h : x.handler.Raises f) : Broken x who (.error f)

/-- A change of some services: it takes steps, and leaves none of the services pending unless it
breaks off. -/
structure Settles (x : Setting) (action : ServiceAction) (scope : Text → Prop) (who : Text)
    (names : List Text) (p : Progress) (result : Except Fault (Option Entry) × Progress) :
    Prop where
  steps : Steps x action scope who p result.2
  ends : (result.1 = .ok none ∧ ∀ n ∈ names, pending action result.2.enabled n = false) ∨
    Broken x who result.1

theorem Settles.refusal (names : List Text) (p : Progress) (m : Message) :
    Settles x action scope who names p (.ok (some (.ofService who m)), p) :=
  ⟨.refl, Or.inr (.failed m.text m.code)⟩

theorem exec_changeAlong {n : Text} {s : Service} (hs : x.catalog.find? n = some s) (fuel : Nat)
    (p : Progress) :
    exec (changeAlong x action fuel who n) p = exec (changeService x action fuel s who)
      { p with tally := p.tally.addWarning (.ofService who (alongMessage action s.title)) } := by
  simp only [changeAlong, exec_bind, exec_definition hs, exec_record]

theorem settles_invoke {s : Service} (ready : Ready x action s p.enabled) (inScope : scope s.name)
    (hp : p.enabled.Nodup) :
    Settles x action scope who [s.name] p (exec (invoke x action s who) p) := by
  rw [exec_invoke]
  cases hreply : x.handler.respond p.calls (x.call action s) with
  | raised text =>
    exact ⟨.single (.raised ready inScope hreply), Or.inr (.raised ⟨_, _, _, hreply, rfl⟩)⟩
  | failed message code =>
    exact ⟨.single (.refused ready inScope hreply), Or.inr (.failed message code)⟩
  | done needsReboot notices =>
    refine ⟨.single (.changed ready inScope hreply), Or.inl ⟨rfl, fun n hn => ?_⟩⟩
    rw [List.mem_singleton.mp hn]
    show pending action (applyChange action s.name p.enabled) s.name = false
    simp [pending_applyChange hp]

/-- What is changed along, one service after the other, stays changed. -/
theorem settles_changeAlong {fuel : Nat} {others : List Text}
    (hone : ∀ n ∈ others, ∀ p, p.enabled.Nodup →
      Settles x action scope who [n] p (exec (changeAlong x action fuel who n) p))
    (hp : p.enabled.Nodup) :
    Settles x action scope who others p
      (exec (firstFailure (changeAlong x action fuel who) others) p) := by
  refine firstFailure_rule
    (I := fun done q => Steps x action scope who p q ∧ ∀ n ∈ done, pending action q.enabled n = false)
    ?_ (fun q hq => ⟨hq.1, Or.inl ⟨rfl, hq.2⟩⟩) ⟨.refl, by simp⟩
  rintro done n rest rfl q ⟨hsteps, hdone⟩
  have hq := hsteps.nodup hp
  obtain ⟨hmore, hends⟩ := hone n (by simp) q hq
  cases hr : exec (changeAlong x action fuel who n) q with
  | mk result r =>
    rw [hr] at hmore hends
    rcases hends with ⟨rfl, hn⟩ | hbroken
    · refine Or.inl ⟨r, rfl, hsteps.trans hmore, fun m hm => ?_⟩
      rcases List.mem_append.mp hm with hm | hm
      · exact hmore.stays hq (hdone m hm)
      · exact hn m hm
    · refine Or.inr ⟨?_, hsteps.trans hmore, Or.inr hbroken⟩
      rintro rfl
      cases hbroken

theorem mem_inTheWay {s : Service} {enabled : List Text} {n : Text} :
    n ∈ inTheWay x action s enabled ↔
      n ∈ x.catalog.before action s.name ∧ pending action enabled n = true := by
  rw [inTheWay, Catalog.mem_sortBy, List.mem_filter]

theorem ready_of_inTheWay_eq_nil {s : Service} {enabled : List Text}
    (hs : x.catalog.find? s.name = some s) (accepted : refusal? x action s enabled = none)
    (hway : inTheWay x action s enabled = []) : Ready x action s enabled := by
  refine ⟨hs, accepted, fun n hn => ?_⟩
  by_contra hne
  have hmem : n ∈ inTheWay x action s enabled := mem_inTheWay.mpr ⟨hn, by simpa using hne⟩
  rw [hway] at hmem
  cases hmem

/-- When nothing in the way of a service is pending any more, its own turn has come: nothing below it
can have changed the service itself. -/
theorem ready_of_clear (wf : x.catalog.WellFormed) {s : Service}
    (hs : x.catalog.find? s.name = some s) (href : refusal? x action s p.enabled = none)
    (hp : p.enabled.Nodup)
    (hsteps : Steps x action (Catalog.LeadsBelow (x.catalog.before action) s.name) who p q)
    (hclear : ∀ n ∈ inTheWay x action s p.enabled, pending action q.enabled n = false) :
    Ready x action s q.enabled := by
  obtain ⟨hfree, hpend⟩ := refusal?_eq_none_iff.mp href
  refine ⟨hs, refusal?_eq_none_iff.mpr ⟨hfree, ?_⟩, fun n hn => ?_⟩
  · rw [hsteps.pending_of_not_scope hp (wf.before_acyclic action s.name)]
    exact hpend
  · by_contra hne
    have hq : pending action q.enabled n = true := by simpa using hne
    have hway := mem_inTheWay.mpr ⟨hn, hsteps.pending_of_pending hp hq⟩
    exact hne (hclear n hway)

/-- The change of a service stays at and below it, and unless it succeeds the service itself is as it
was. -/
structure Changes (x : Setting) (action : ServiceAction) (name who : Text) (p : Progress)
    (result : Except Fault (Option Entry) × Progress) : Prop
    extends Settles x action (Catalog.LeadsTo (x.catalog.before action) name) who [name] p result where
  spared : result.1 ≠ .ok none →
    pending action result.2.enabled name = pending action p.enabled name

theorem Changes.refusal {s : Service} (p : Progress) (m : Message) :
    Changes x action s.name who p (.ok (some (.ofService who m)), p) where
  toSettles := .refusal _ p m
  spared _ := rfl

theorem enabled_of_invoke {s : Service} (h : (exec (invoke x action s who) p).1 ≠ .ok none) :
    (exec (invoke x action s who) p).2.enabled = p.enabled := by
  rw [exec_invoke] at h ⊢
  cases hreply : x.handler.respond p.calls (x.call action s) with
  | raised | failed => rfl
  | done needsReboot notices =>
    rw [hreply] at h
    exact absurd rfl h

/-- Changing what is in the way of a service, and then the service itself, stays at and below it. -/
theorem changes_changeAfter (wf : x.catalog.WellFormed) {fuel : Nat} {s : Service}
    (hs : x.catalog.find? s.name = some s) (href : refusal? x action s p.enabled = none)
    (hone : ∀ n ∈ inTheWay x action s p.enabled, ∀ p, p.enabled.Nodup →
      Settles x action (Catalog.LeadsBelow (x.catalog.before action) s.name) who [n] p
        (exec (changeAlong x action fuel who n) p))
    (hp : p.enabled.Nodup) :
    Changes x action s.name who p
      (exec (changeAfter x action fuel s who (inTheWay x action s p.enabled)) p) := by
  unfold changeAfter
  split
  · next first hfirst _ =>
    have hbefore := (mem_inTheWay.mp (List.mem_of_head? hfirst)).1
    obtain ⟨d, hd⟩ := Catalog.has_iff.mp (wf.has_of_mem_before hbefore)
    simp only [exec_bind, exec_definition hd, exec_pure]
    exact .refusal p _
  · have hloop := settles_changeAlong hone hp
    rw [exec_bind]
    cases hr : exec (firstFailure (changeAlong x action fuel who)
      (inTheWay x action s p.enabled)) p with
    | mk result q =>
      rw [hr] at hloop
      have hsteps := hloop.steps.mono fun m hm => Relation.TransGen.to_reflTransGen hm
      -- The loop stays below the service, and no service is below itself.
      have hself := hloop.steps.pending_of_not_scope hp (wf.before_acyclic action s.name)
      rcases hloop.ends with ⟨rfl, hclear⟩ | hbroken
      · have ready := ready_of_clear wf hs href hp hloop.steps hclear
        have hlast : Settles x action (Catalog.LeadsTo (x.catalog.before action) s.name) who
            [s.name] q (exec (invoke x action s who) q) :=
          settles_invoke ready .refl (hloop.steps.nodup hp)
        refine ⟨⟨hsteps.trans hlast.steps, hlast.ends⟩, fun hfails => ?_⟩
        rw [← hself]
        exact congrArg (pending action · s.name) (enabled_of_invoke hfails)
      · cases hbroken with
        | failed m c => exact ⟨⟨hsteps, Or.inr (.failed m c)⟩, fun _ => hself⟩
        | raised hraise => exact ⟨⟨hsteps, Or.inr (.raised hraise)⟩, fun _ => hself⟩

theorem changes_changeService (wf : x.catalog.WellFormed) (fuel : Nat) :
    ∀ (s : Service) (p : Progress), x.catalog.find? s.name = some s →
      x.catalog.height action s.name < fuel → p.enabled.Nodup →
      Changes x action s.name who p (exec (changeService x action fuel s who) p) := by
  induction fuel with
  | zero => exact fun _ _ _ h => absurd h (Nat.not_lt_zero _)
  | succ fuel ih =>
    intro s p hs hheight hp
    rw [exec_changeService hs]
    cases href : refusal? x action s p.enabled with
    | some m => exact .refusal p m
    | none =>
      refine changes_changeAfter wf hs href (fun n hn p hp => ?_) hp
      have hbefore := (mem_inTheWay.mp hn).1
      obtain ⟨d, hd⟩ := Catalog.has_iff.mp (wf.has_of_mem_before hbefore)
      obtain rfl := Catalog.name_of_find? hd
      have hlt := wf.height_lt hbefore
      have hchanges := ih d { p with
        tally := p.tally.addWarning (.ofService who (alongMessage action d.title)) } hd
          (by omega) hp
      rw [exec_changeAlong hd]
      exact ⟨.head (.warned p _) (hchanges.steps.mono fun m hm => .head' hbefore hm), hchanges.ends⟩

/-- Only what was pending is changed with success. -/
theorem pending_of_changeService {s : Service} (hs : x.catalog.find? s.name = some s) {fuel : Nat}
    (h : (exec (changeService x action fuel s who) p).1 = .ok none) :
    pending action p.enabled s.name = true := by
  cases fuel with
  | zero => cases action <;> cases h
  | succ fuel =>
    rw [exec_changeService hs] at h
    cases href : refusal? x action s p.enabled with
    | some m =>
      rw [href] at h
      cases h
    | none => exact (refusal?_eq_none_iff.mp href).2

end Executor

end Subscription
