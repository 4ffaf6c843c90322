import Subscription.Proofs.Catalog.Accepted
import Subscription.Proofs.Executor.Revocation
import Subscription.Proofs.Resolution.Rounds

/-!
Refreshing under a handler that does all it is asked. Every enabled service that the new contract does
not grant ought to be disabled, reported and warned of. This happens to all of them exactly when no
enabled service is overtaken in their order; otherwise one of them goes down with an earlier one and is
passed over, or the cascade of one of them fails.
-/

namespace Subscription

open Executor Catalog

variable {document : Json} {ctx : Context}

def Context.lost (ctx : Context) (contract : Contract) : List Text :=
  ctx.state.enabled.filter fun n => ctx.catalog.has n && !decide (n ∈ contract.entitlements)

theorem Context.mem_lost {contract : Contract} {n : Text} : n ∈ ctx.lost contract ↔
    n ∈ ctx.state.enabled ∧ ctx.catalog.has n ∧ n ∉ contract.entitlements := by
  simp [lost]

/-- A refresh on an attached machine is one session. -/
theorem exec_resolveRefresh (attached : ctx.state.attached = true) (contract : Contract)
    (past : List Call) {done : Progress}
    (h : exec (revokeAll (ctx.setting ctx.state true) (ctx.catalog.disableOrder (ctx.lost contract)))
      (start past ctx.state.enabled) = (.ok (), done)) :
    exec (resolveRefresh ctx (some contract)) past =
      (.ok ⟨done.tally.report, some { ctx.state.after done with
        entitlements := contract.entitlements
        contract := ctx.state.contract.map fun r => { r with name := contract.name } }⟩,
        done.calls) := by
  have hsession : exec (ctx.session ctx.state true
      (revokeAll · (ctx.catalog.disableOrder (ctx.lost contract)))) past = (.ok done, done.calls) := by
    rw [exec_session, h]
  unfold Context.lost at hsession
  unfold resolveRefresh
  simp only [LifecycleAction.obstacle?, attached, if_true]
  rw [exec_bind, hsession]
  rfl

/-- Some names have each succeeded once, and nothing has failed, when they are all the outcomes there
are. -/
theorem eq_map_success_iff {names : List Text} {os : List (Text × Outcome)} (nodup : names.Nodup)
    (hsub : (os.map (·.1)).Sublist names) (hos : ∀ o ∈ os, o.2 ≠ .skipped) :
    os = names.map (fun n => (n, .success)) ↔
      (∀ n ∈ names, (n, .success) ∈ os) ∧ ∀ n, (n, .failure) ∉ os := by
  constructor
  · rintro rfl
    exact ⟨fun n hn => List.mem_map.mpr ⟨n, hn, rfl⟩, by simp⟩
  · rintro ⟨hall, hnone⟩
    have hnames : os.map (·.1) = names := by
      refine hsub.eq_of_length_le (List.Subperm.length_le (nodup.subperm fun n hn => ?_))
      exact List.mem_map.mpr ⟨_, hall n hn, rfl⟩
    have hsuccess : ∀ o ∈ os, o = (o.1, Outcome.success) := by
      rintro ⟨n, o⟩ ho
      cases o with
      | success => rfl
      | failure => exact absurd ho (hnone n)
      | skipped => exact absurd rfl (hos _ ho)
    rw [← hnames, List.map_map]
    conv_lhs => rw [← List.map_id os]
    exact List.map_congr_left hsuccess

/-- A refresh disables, and reports as processed, every service that is no longer granted, and reports
no failure, exactly when no enabled service is overtaken in the order of these services. In any case
it reports what stays enabled as failed, and takes away nothing that does not need a service that is no
longer granted; and where the handler does not say so itself, it says once of each service that has its
turn, and of no other, that it is no longer granted. -/
theorem refresh_revokes_iff (accepted : ofDocument document = .ok ctx.catalog)
    (attached : ctx.state.attached = true) (nodup : ctx.state.enabled.Nodup)
    (closed : ∀ n ∈ ctx.state.enabled, ∀ r ∈ ctx.catalog.requirementsOf n, r ∈ ctx.state.enabled)
    (obedient : ctx.handler.Obedient) (contract : Contract) (past : List Call) :
    ∃ r past', exec (resolveRefresh ctx (some contract)) past = (.ok r, past') ∧
      (((∀ n ∈ ctx.lost contract, n ∉ (r.attachment ctx.state).enabled ∧ n ∈ r.report.processed) ∧
          r.report.failed = []) ↔
        ∀ t ∈ ctx.state.enabled, ¬Overtaken ctx.catalog.dependentsOf t
          (ctx.catalog.disableOrder (ctx.lost contract))) ∧
      (∀ n ∈ ctx.lost contract, n ∈ (r.attachment ctx.state).enabled → n ∈ r.report.failed) ∧
      (∀ n ∈ ctx.state.enabled, n ∉ (r.attachment ctx.state).enabled →
        ∃ m ∈ ctx.lost contract, ctx.catalog.Needs n m) ∧
      (ctx.handler.Discreet → ∀ n, (revocations r.report.warnings).count n =
        if n ∈ r.report.processed ∨ n ∈ r.report.failed then 1 else 0) := by
  have wf := wellFormed_of_ofDocument accepted
  set names := ctx.catalog.disableOrder (ctx.lost contract) with hnames
  have hmem : ∀ n, n ∈ names ↔ n ∈ ctx.lost contract := fun n => mem_sortBy
  have hnodup : names.Nodup := nodup_sortBy _ _
  obtain ⟨done, hexec, hdone⟩ :=
    revocations_revokeAll (x := ctx.setting ctx.state true) (p := start past ctx.state.enabled) wf
      obedient rfl (fun n hn => (Context.mem_lost.mp ((hmem n).mp hn)).2.1) nodup
      (closed_of_requirements closed .disable)
  obtain ⟨os, houtcomes, hsub, hos, hleft, hsaid⟩ := hdone.record
  have houtcomes : done.tally.outcomes = os := houtcomes
  have hprocessed : ∀ n, n ∈ done.tally.report.processed ↔ (n, .success) ∈ os := fun n => by
    rw [← houtcomes]
    exact Tally.mem_withOutcome
  have hfailed : ∀ n, n ∈ done.tally.report.failed ↔ (n, .failure) ∈ os := fun n => by
    rw [← houtcomes]
    exact Tally.mem_withOutcome
  have hclear : os = names.map (fun n => (n, .success)) ↔
      ∀ t ∈ ctx.state.enabled, ¬Overtaken ctx.catalog.dependentsOf t names := by
    rw [← houtcomes]
    exact hdone.succeeds_iff fun n hn => (Context.mem_lost.mp ((hmem n).mp hn)).1
  refine ⟨_, _, exec_resolveRefresh attached contract past hexec, ?_, fun n hn hend => ?_,
    fun n hn hgone => ?_, fun discreet n => ?_⟩
  · rw [← hclear, eq_map_success_iff hnodup hsub fun o ho => (hos o ho).2]
    constructor
    · rintro ⟨hall, hnone⟩
      refine ⟨fun n hn => (hprocessed n).mp (hall n ((hmem n).mp hn)).2, fun n hn => ?_⟩
      have := (hfailed n).mpr hn
      rw [show done.tally.report.failed = [] from hnone] at this
      cases this
    · rintro ⟨hall, hnone⟩
      refine ⟨fun n hn => ⟨fun hend => ?_, ?_⟩, List.eq_nil_iff_forall_not_mem.mpr fun n hn => ?_⟩
      · exact hnone n (hleft n ((hmem n).mpr hn) hend)
      · exact (hprocessed n).mpr (hall n ((hmem n).mpr hn))
      · exact hnone n ((hfailed n).mp hn)
  · exact (hfailed n).mpr (hleft n ((hmem n).mpr hn) hend)
  · obtain ⟨m, hm, hleads⟩ := hdone.leads hn hgone
    exact ⟨m, (hmem m).mp hm, leadsTo_dependentsOf.mp hleads⟩
  · have hsaid : revocations done.tally.warnings = os.map (·.1) := hsaid discreet
    have hturn : n ∈ os.map (·.1) ↔
        n ∈ done.tally.report.processed ∨ n ∈ done.tally.report.failed := by
      rw [hprocessed, hfailed]
      constructor
      · intro hn
        obtain ⟨⟨m, o⟩, ho, rfl⟩ := List.mem_map.mp hn
        cases o with
        | success => exact Or.inl ho
        | failure => exact Or.inr ho
        | skipped => exact absurd rfl (hos _ ho).2
      · rintro (hn | hn) <;> exact List.mem_map.mpr ⟨_, hn, rfl⟩
    show (revocations done.tally.warnings).count n = _
    rw [hsaid, (hnodup.sublist hsub).count]
    simp only [hturn]

/-- A catalog in which `c` requires `b`, and `b` requires `a`. -/
def chainDocument : Json :=
  documentOf [plainEntry "jammy" "a" [], plainEntry "jammy" "b" ["a"], plainEntry "jammy" "c" ["b"]]

def chain : Catalog where
  services := [plainService "jammy" "a" [], plainService "jammy" "b" ["a"],
    plainService "jammy" "c" ["b"]]
  distinct := by decide

theorem ofDocument_chain : ofDocument chainDocument = .ok chain := rfl

def chainContext : Context where
  catalog := chain
  handler := .system false
  series := "jammy"
  now := "2026-01-01T00:00:00.000Z"
  state := ⟨true, ["a", "b", "c"], ["a", "b", "c"], some ⟨"k", "t", "2026-01-01T00:00:00.000Z", none⟩⟩

/-- When only `c` is no longer granted, it goes alone. -/
theorem refresh_revokes_iff_chain :
    ∃ r past', exec (resolveRefresh chainContext (some ⟨"k", ["a", "b"]⟩)) [] = (.ok r, past') ∧
      (((∀ n ∈ chainContext.lost ⟨"k", ["a", "b"]⟩,
            n ∉ (r.attachment chainContext.state).enabled ∧ n ∈ r.report.processed) ∧
          r.report.failed = []) ↔
        ∀ t ∈ chainContext.state.enabled, ¬Overtaken chain.dependentsOf t
          (chain.disableOrder (chainContext.lost ⟨"k", ["a", "b"]⟩))) ∧
      (∀ n ∈ chainContext.lost ⟨"k", ["a", "b"]⟩,
        n ∈ (r.attachment chainContext.state).enabled → n ∈ r.report.failed) ∧
      (∀ n ∈ chainContext.state.enabled, n ∉ (r.attachment chainContext.state).enabled →
        ∃ m ∈ chainContext.lost ⟨"k", ["a", "b"]⟩, chain.Needs n m) ∧
      (chainContext.handler.Discreet → ∀ n, (revocations r.report.warnings).count n =
        if n ∈ r.report.processed ∨ n ∈ r.report.failed then 1 else 0) :=
  refresh_revokes_iff ofDocument_chain rfl (by decide) (by decide) Handler.obedient_system
    ⟨"k", ["a", "b"]⟩ []

/-- When `a` and `c` are no longer granted, `c` goes down with `b` on behalf of `a`, and is neither
reported nor warned of. -/
theorem refresh_passes_over_chain :
    ¬∀ (document : Json) (ctx : Context) (contract : Contract) (past : List Call),
      ofDocument document = .ok ctx.catalog → ctx.state.attached = true → ctx.state.enabled.Nodup →
      (∀ n ∈ ctx.state.enabled, ∀ r ∈ ctx.catalog.requirementsOf n, r ∈ ctx.state.enabled) →
      ctx.handler.Obedient →
      ∃ r past', exec (resolveRefresh ctx (some contract)) past = (.ok r, past') ∧
        (∀ n ∈ ctx.lost contract, n ∉ (r.attachment ctx.state).enabled ∧ n ∈ r.report.processed ∧
          (revocations r.report.warnings).count n = 1) ∧
        (∀ n ∈ ctx.state.enabled, n ∉ (r.attachment ctx.state).enabled → n ∉ ctx.lost contract →
          ∃ m ∈ ctx.lost contract, ctx.catalog.Needs n m) ∧
        r.report.failed = [] := by
  intro h
  obtain ⟨r, past', hexec, hlost, -⟩ := h chainDocument chainContext ⟨"k", ["b"]⟩ [] ofDocument_chain
    rfl (by decide) (by decide) Handler.obedient_system
  have hprocessed : ((exec (resolveRefresh chainContext (some ⟨"k", ["b"]⟩)) []).1.map
      (·.report.processed)) = .ok ["a"] := rfl
  rw [hexec] at hprocessed
  have hc := (hlost "c" (by decide)).2.1
  rw [show r.report.processed = ["a"] from Except.ok.inj hprocessed] at hc
  exact absurd hc (by decide)

end Subscription
