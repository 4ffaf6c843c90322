import Subscription.Proofs.Executor.Stacked
import Subscription.Proofs.Resolution.Batches
import Subscription.Proofs.Resolution.Request

/-!
Disabling as the inverse of enabling. A request without consent that succeeds has enabled its services one
upon the other, each of them ready in its turn; so the request to disable them in the opposite order finds
nothing in its way, and leaves the machine as it was before both, the order of its services included.
-/

namespace Subscription

open Executor Catalog

variable {document : Json} {ctx : Context} {names : List Text} {allowBeta : Bool} {r : Resolution}
  {past past' : List Call}

theorem foldl_dedupe_of_nodup {seen : List Text} (h : (seen ++ names).Nodup) :
    names.foldl (fun seen n => if n ∈ seen then seen else seen ++ [n]) seen = seen ++ names := by
  induction names generalizing seen with
  | nil => simp
  | cons n names ih =>
    have hn : n ∉ seen := fun hn => List.disjoint_of_nodup_append h hn List.mem_cons_self
    rw [List.append_cons] at h ⊢
    rw [List.foldl_cons, if_neg hn, ih h]

theorem dedupe_of_nodup (h : names.Nodup) : dedupe names = names :=
  foldl_dedupe_of_nodup h

/-- A request that succeeds names known services only. -/
theorem knows_of_success (attached : ctx.state.attached = true) {request : Request}
    (named : request.names ≠ []) (h : exec (resolveRequest ctx request) past = (.ok r, past'))
    (success : r.report.verdict = .success) :
    ∀ n ∈ request.names, ctx.catalog.knows request.allowBeta n := by
  obtain ⟨-, hexplained⟩ := reports_resolveRequest attached named h
  obtain ⟨es, herrors, -⟩ := hexplained.errors
  have hnone : r.report.errors = [] := by
    by_contra hne
    exact absurd (success.symm.trans (hexplained.verdict.mpr hne)) (by decide)
  rw [hnone, eq_comm, List.append_eq_nil_iff, List.map_eq_nil_iff, Partition.complaints] at herrors
  intro n hn
  by_contra hunknown
  have hmem : n ∈ (ctx.catalog.partition request.allowBeta (dedupe request.names)).unknown :=
    mem_unknown.mpr ⟨mem_dedupe.mpr hn, hunknown⟩
  rw [if_neg fun hempty => by
    rw [hempty] at hmem
    cases hmem] at herrors
  cases herrors.2

/-- What a request without consent has enabled with success, a request for the same services in the
opposite order disables with success, and then everything is as it was before. -/
theorem disable_undoes_enable (accepted : ofDocument document = .ok ctx.catalog)
    (attached : ctx.state.attached = true) (nodup : ctx.state.enabled.Nodup)
    (closed : ∀ n ∈ ctx.state.enabled, ∀ r ∈ ctx.catalog.requirementsOf n, r ∈ ctx.state.enabled)
    (obedient : ctx.handler.Obedient) (distinct : names.Nodup)
    (h : exec (resolveRequest ctx ⟨.enable, names, false, allowBeta⟩) past = (.ok r, past'))
    (success : r.report.verdict = .success) :
    ∃ r' past'', exec (resolveRequest { ctx with state := r.attachment ctx.state }
        ⟨.disable, names.reverse, false, allowBeta⟩) past' = (.ok r', past'') ∧
      r'.report.verdict = .success ∧ r'.attachment (r.attachment ctx.state) = ctx.state := by
  have wf := wellFormed_of_ofDocument accepted
  have named : names ≠ [] := by
    rintro rfl
    cases h
  have known := knows_of_success attached named h success
  rw [exec_resolveRequest_of_known attached named known, dedupe_of_nodup distinct] at h
  rcases hexec : exec (changeAll (ctx.setting ctx.state false) .enable names)
    (start past ctx.state.enabled) with ⟨f | ⟨⟩, p⟩
  all_goals
    rw [hexec] at h
    cases h
  -- The services were enabled one upon the other.
  have hnofail : ∀ n, (n, .failure) ∉ p.tally.outcomes := fun n hn => by
    have hfailed := Tally.mem_withOutcome.mpr hn
    rw [Tally.withOutcome_failure_of_success success] at hfailed
    cases hfailed
  obtain ⟨hstacked, henabled⟩ := stacked_of_changeAll wf rfl (fun n hn => has_of_knows (known n hn))
    distinct (by simp [start]) hexec hnofail
  -- So they can be disabled from the top down.
  obtain ⟨q, new, hback, horderly, hq⟩ := @exec_changeAll_reverse _ _ _
    (start p.calls p.enabled) (obedient.obeys .disable) wf hstacked nodup closed distinct henabled
  rw [Resolution.attachment_ofSession]
  let ctx' : Context := { ctx with state := ctx.state.after p }
  have hrequest : exec (resolveRequest ctx' ⟨.disable, names.reverse, false, allowBeta⟩) p.calls =
      (.ok (.ofSession ctx'.state q), q.calls) := by
    have hback' : exec (changeAll (ctx'.setting ctx'.state false) .disable names.reverse)
        (start p.calls ctx'.state.enabled) = (.ok (), q) := hback
    have attached' : ctx'.state.attached = true := attached
    rw [exec_resolveRequest_of_known attached' (by simpa using named)
      (by simpa using known), dedupe_of_nodup (List.nodup_reverse.mpr distinct),
      hback']
  refine ⟨_, _, hrequest, ?_, ?_⟩
  · have herrors : q.tally.errors = [] := horderly.errors
    have houtcomes : q.tally.outcomes = names.reverse.map fun n => (n, .success) := horderly.outcomes
    simp [Resolution.ofSession, Tally.report, Tally.withOutcome, herrors, houtcomes]
  · have hsame : q.enabled = ctx.state.enabled := hq
    show (Resolution.ofSession ctx'.state q).attachment ctx'.state = ctx.state
    rw [Resolution.attachment_ofSession]
    simp [ctx', Attachment.after, hsame]

/-- A machine with a subscription for everything in `detour`, on which `c` is enabled. -/
def startedContext : Context :=
  { detourContext with state := { detourContext.state with enabled := ["c"] } }

/-- There `x`, `b` and `a` are enabled in this order, and disabled in the opposite one. -/
theorem disable_undoes_enable_started :
    ∃ r past', exec (resolveRequest startedContext ⟨.enable, ["x", "b", "a"], false, false⟩) [] =
        (.ok r, past') ∧ r.report.verdict = .success ∧
      (r.attachment startedContext.state).enabled = ["c", "x", "b", "a"] ∧
      ∃ r' past'', exec (resolveRequest { startedContext with
          state := r.attachment startedContext.state } ⟨.disable, ["a", "b", "x"], false, false⟩) past' =
          (.ok r', past'') ∧
        r'.report.verdict = .success ∧
        r'.attachment (r.attachment startedContext.state) = startedContext.state := by
  have hmade : ((exec (resolveRequest startedContext ⟨.enable, ["x", "b", "a"], false, false⟩) []).1.map
      fun r => (r.report.verdict, (r.attachment startedContext.state).enabled)) =
      .ok (.success, ["c", "x", "b", "a"]) := rfl
  rcases h : exec (resolveRequest startedContext ⟨.enable, ["x", "b", "a"], false, false⟩) [] with
    ⟨f | r, past'⟩
  · rw [h] at hmade
    cases hmade
  · rw [h] at hmade
    obtain ⟨success, henabled⟩ := Prod.mk.inj (Except.ok.inj hmade)
    exact ⟨r, past', rfl, success, henabled, disable_undoes_enable ofDocument_detour rfl (by decide)
      (by decide) Handler.obedient_system (by decide) h success⟩

end Subscription
