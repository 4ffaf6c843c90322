import Subscription.Proofs.Executor.Growth
import Subscription.Proofs.Resolution.Instance
import Subscription.Proofs.Resolution.Resolver

/-!
How resolutions break off when the handler always answers: a request without names does at once, and an
instance whose contract cannot be looked up does when it has arrived. Only on the way of the latter can
the handler have been called, to detach the machine from an older subscription.
-/

namespace Subscription

open Executor

variable {ctx : Context}

/-! ### Resolutions that only a handler can break off -/

theorem throws_resolveAttach (wf : ctx.catalog.WellFormed) (token : Text) (autoEnable : Bool)
    (contract : Option Contract) :
    Throws (resolveAttach ctx token autoEnable contract) ctx.handler.Raises := by
  unfold resolveAttach
  split
  · exact throws_pure _
  · exact throws_pure _
  · next contract _ =>
    have hsession : Throws (if autoEnable
        then enableDefaults (ctx.setting (ctx.freshAttachment contract token none) true)
        else pure ()) ctx.handler.Raises := by
      split
      · exact throws_enableDefaults wf
      · exact throws_pure ()
    exact throws_bind (throws_session hsession) fun _ => throws_pure _

theorem throws_resolveRefresh (wf : ctx.catalog.WellFormed) (contract : Option Contract) :
    Throws (resolveRefresh ctx contract) ctx.handler.Raises := by
  unfold resolveRefresh
  split
  · exact throws_pure _
  · exact throws_pure _
  · refine throws_bind (throws_session (throws_revokeAll wf fun n hn => ?_)) fun _ => throws_pure _
    have hlost := (List.mem_filter.mp (Catalog.mem_sortBy.mp hn)).2
    rw [Bool.and_eq_true] at hlost
    exact hlost.1

namespace AutoAttach

variable {opts : AutoAttachOptions}

theorem throws_enrol (wf : ctx.catalog.WellFormed) (arrival : Arrival) (contract : Option Contract) :
    Throws (enrol ctx opts arrival contract) ctx.handler.Raises := by
  cases contract with
  | none => exact throws_pure _
  | some contract =>
    unfold enrol
    dsimp only
    split
    · exact throws_bind (throws_session (throws_enableDefaults wf)) fun _ => throws_pure _
    · split
      · exact throws_rounds wf (fun n hn => Catalog.has_of_knows (Catalog.mem_known.mp hn).2) _ _ _ _ _
      · exact throws_pure _

end AutoAttach

/-! ### Breaking off under a handler that answers -/

/-- A request breaks off only when it names nothing, and then before it begins. -/
theorem exec_resolveRequest_error (wf : ctx.catalog.WellFormed) (answers : ctx.handler.Answers)
    {r : Request} {past past' : List Call} {f : Fault}
    (h : exec (resolveRequest ctx r) past = (.error f, past')) :
    r.names = [] ∧ f = .noServiceNames r.action ∧ past' = past := by
  rw [resolveRequest, exec_bind, exec_liftExcept, Request.check] at h
  by_cases hempty : r.names.isEmpty
  · rw [if_pos hempty] at h
    cases h
    exact ⟨List.isEmpty_iff.mp hempty, rfl, rfl⟩
  · rw [if_neg hempty] at h
    refine absurd ?_ (answers.not_raises f)
    refine (?_ : Throws _ ctx.handler.Raises) past f past' h
    dsimp only
    split
    · exact throws_pure _
    · exact throws_bind (throws_session (throws_runBatch wf fun n hn =>
        Catalog.has_of_knows (Catalog.mem_known.mp hn).2)) fun _ => throws_pure _

/-- A resolution that breaks off is a request without names, and has called nothing, or is that of an
instance that has arrived and whose contract cannot be looked up. -/
theorem Resolver.exec_run_error (wf : ctx.catalog.WellFormed) (answers : ctx.handler.Answers)
    {t : Resolver} {past past' : List Call} {f : Fault}
    (h : exec (t.run ctx) past = (.error f, past')) :
    (∃ r, t = .request r ∧ r.names = [] ∧ f = .noServiceNames r.action ∧ past' = past) ∨
      ∃ opts token contracts arrival, t = .autoAttach opts (some token) contracts ∧
        exec (AutoAttach.arrive ctx (some token)) past = (.ok (.inr arrival), past') ∧
        contracts token.token = .error f := by
  cases t with
  | request r => exact Or.inl ⟨r, rfl, exec_resolveRequest_error wf answers h⟩
  | attach token autoEnable contract =>
    exact absurd (throws_resolveAttach wf token autoEnable contract past f past' h)
      (answers.not_raises f)
  | detach => exact absurd (AutoAttach.throws_resolveDetach wf past f past' h) (answers.not_raises f)
  | refresh contract =>
    exact absurd (throws_resolveRefresh wf contract past f past' h) (answers.not_raises f)
  | autoAttach opts token contracts =>
    rw [run, resolveAutoAttach, exec_bind] at h
    cases token with
    | none => cases h
    | some token =>
      rcases harrive : exec (AutoAttach.arrive ctx (some token)) past with ⟨e | r | arrival, past₁⟩
      · exact absurd (AutoAttach.throws_arrive wf past e past₁ harrive) (answers.not_raises e)
      · rw [harrive] at h
        cases h
      · obtain ⟨rfl, -⟩ := AutoAttach.yields_arrive past (.inr arrival) past₁ harrive
        rw [harrive] at h
        simp only [exec_bind, exec_liftExcept] at h
        rcases hfound : contracts arrival.token.token with e | contract
        · rw [hfound] at h
          cases h
          exact Or.inr ⟨opts, _, contracts, arrival, rfl, harrive, hfound⟩
        · rw [hfound] at h
          exact absurd (AutoAttach.throws_enrol wf arrival contract past₁ f past' h)
            (answers.not_raises f)

/-! ### The way of an instance -/

/-- The handler has done its work in a detach that succeeds exactly when there was a service to
disable. -/
theorem calls_of_resolveDetach (attached : ctx.state.attached = true)
    {r : Resolution} {past past' : List Call} (h : exec (resolveDetach ctx) past = (.ok r, past'))
    (success : r.report.verdict = .success) :
    ∃ new, past' = past ++ new ∧
      (ctx.handler.CarriedOut past new ↔ ∃ n ∈ ctx.state.enabled, ctx.catalog.has n) := by
  have hmem : ∀ n, n ∈ ctx.catalog.disableOrder (ctx.state.enabled.filter ctx.catalog.has) ↔
      n ∈ ctx.state.enabled ∧ ctx.catalog.has n := fun n => by
    rw [Catalog.disableOrder, Catalog.mem_sortBy, List.mem_filter]
  simp only [resolveDetach, LifecycleAction.obstacle?, attached, if_true, exec_bind, exec_session] at h
  generalize ctx.catalog.disableOrder (ctx.state.enabled.filter ctx.catalog.has) = names at h hmem
  rcases hexec : exec (changeAll (ctx.setting ctx.state true) .disable names)
    (start past ctx.state.enabled) with ⟨f | _, done⟩
  · rw [hexec] at h
    cases h
  · rw [hexec] at h
    cases h
    cases names with
    | nil =>
      cases hexec
      refine ⟨[], (List.append_nil past).symm,
        fun hdone => absurd hdone (Handler.not_carriedOut_nil past), ?_⟩
      rintro ⟨n, hn, hhas⟩
      cases (hmem n).mpr ⟨hn, hhas⟩
    | cons n names =>
      obtain ⟨hn, hhas⟩ := (hmem n).mp List.mem_cons_self
      rcases carriedOut_of_changeAll (fun m hm => ((hmem m).mp hm).2) List.not_mem_nil hexec with
        hfailed | ⟨new, hcalls, hdone⟩
      · -- A failure on record would have made the detach fail.
        have hfailed := Tally.mem_withOutcome.mpr hfailed
        rw [Tally.withOutcome_failure_of_success success] at hfailed
        cases hfailed
      · exact ⟨new, hcalls, fun _ => ⟨n, hn, hhas⟩, fun _ => hdone⟩

/-- The handler has done its work on the way of an instance exactly when the machine was attached
elsewhere, with a service of the catalog enabled. -/
theorem AutoAttach.calls_of_arrive {token : InstanceToken} {arrival : Arrival} {past past' : List Call}
    (h : exec (arrive ctx (some token)) past = (.ok (.inr arrival), past')) :
    ∃ new, past' = past ++ new ∧ (ctx.handler.CarriedOut past new ↔
      ctx.state.attached = true ∧ ctx.state.contract.bind (·.instanceId) ≠ some token.instanceId ∧
        ∃ n ∈ ctx.state.enabled, ctx.catalog.has n) := by
  rcases arrived_cases h with ⟨unattached, -, rfl⟩ | ⟨attached, other, detached, hdetach, success, -⟩
  · exact ⟨[], (List.append_nil _).symm, fun hdone => absurd hdone (Handler.not_carriedOut_nil _),
      fun hn => absurd (hn.1.symm.trans unattached) (by decide)⟩
  · obtain ⟨new, hcalls, hdone⟩ := calls_of_resolveDetach attached hdetach success
    exact ⟨new, hcalls, hdone.trans ⟨fun hn => ⟨attached, other, hn⟩, fun hn => hn.2.2⟩⟩

end Subscription
