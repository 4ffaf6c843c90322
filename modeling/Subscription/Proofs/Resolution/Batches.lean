import Subscription.Proofs.Resolution.Reporting
import Subscription.Proofs.Resolution.Termination

/-!
What a batch reports. Requests, attaching and detaching go over a list of names in one session, and their
report accounts for it: each name is processed or has failed, in the order of the list and whatever
happened to the others, and each that has failed is explained by one error. What concerns the whole
operation follows behind.
-/

namespace Subscription

open Executor Catalog

namespace Report

/-- The names of a list are shared out between those that were processed and those that failed, both in
the order of the list. -/
structure Shares (r : Report) (names : List Text) : Prop where
  distinct : names.Nodup
  processed : r.processed.Sublist names
  failed : r.failed.Sublist names
  each : (r.processed ++ r.failed).Perm names

/-- There is one error for each name that failed, in their order, and then there are those of the whole
operation; and any error makes a failure. -/
structure Explained (r : Report) (ms : List Message) : Prop where
  errors : ∃ es, r.errors = es ++ ms.map .ofSystem ∧
    es.map Entry.subject = r.failed.map fun n => (some n, .service)
  verdict : r.verdict = .failure ↔ r.errors ≠ []

end Report

/-! ### From tallies to reports -/

namespace Tally

variable {t u : Tally} {os : List (Text × Outcome)} {names : List Text}

def reportWith (t : Tally) (ms : List Message) : Report :=
  (ms.foldl (fun t m => t.addError (.ofSystem m)) t).report

theorem processed_reportWith (t : Tally) (ms : List Message) :
    (t.reportWith ms).processed = t.withOutcome .success := by
  rw [reportWith, AutoAttach.foldl_addError]
  rfl

theorem failed_reportWith (t : Tally) (ms : List Message) :
    (t.reportWith ms).failed = t.withOutcome .failure := by
  rw [reportWith, AutoAttach.foldl_addError]
  rfl

theorem errors_reportWith (t : Tally) (ms : List Message) :
    (t.reportWith ms).errors = t.errors ++ ms.map .ofSystem := by
  rw [reportWith, AutoAttach.foldl_addError]
  rfl

theorem Gains.withOutcome (h : empty.Gains os u) (o : Outcome) :
    u.withOutcome o = (os.filter (·.2 = o)).map (·.1) := by
  rw [Tally.withOutcome, h.outcomes]
  rfl

theorem verdict_report (t : Tally) :
    t.report.verdict = .failure ↔ t.report.errors ≠ [] ∨ t.report.failed ≠ [] := by
  simp only [report]
  split
  · next h => simp_all
  · next h =>
    refine iff_of_true rfl ?_
    by_contra hne
    simp_all

theorem Gains.explained (h : empty.Gains os u) (ms : List Message) : (u.reportWith ms).Explained ms := by
  obtain ⟨es, hes, hsubjects⟩ := h.errors
  have herrors : (u.reportWith ms).errors = es ++ ms.map .ofSystem := by
    rw [errors_reportWith, hes]
    rfl
  have hexplained : es.map Entry.subject =
      (u.reportWith ms).failed.map fun n => (some n, .service) := by
    rw [hsubjects, failed_reportWith, h.withOutcome, List.map_map]
    rfl
  refine ⟨⟨es, herrors, hexplained⟩, ?_⟩
  rw [reportWith, verdict_report, or_iff_left_iff_imp]
  -- A failed name has an error of its own.
  intro hfailed hnone
  have hempty : es = [] := (List.append_eq_nil_iff.mp (herrors.symm.trans hnone)).1
  rw [hempty] at hexplained
  exact hfailed (List.map_eq_nil_iff.mp hexplained.symm)

theorem Gains.shares (h : empty.Gains os u) (htells : Tells [] names os) (distinct : names.Nodup)
    (ms : List Message) : (u.reportWith ms).Shares names := by
  have hall : os.filter (·.2 ≠ .skipped) = os :=
    List.filter_eq_self.mpr fun o ho => by simp [htells.skipped o ho]
  have hperm := perm_outcomes os
  rw [hall, htells.names] at hperm
  refine ⟨distinct, ?_, ?_, ?_⟩
  · rw [processed_reportWith, h.withOutcome, ← htells.names]
    exact List.filter_sublist.map _
  · rw [failed_reportWith, h.withOutcome, ← htells.names]
    exact List.filter_sublist.map _
  · rwa [processed_reportWith, failed_reportWith, h.withOutcome, h.withOutcome]

end Tally

def Partition.complaints (action : Text) (p : Partition) : List Message :=
  if p.unknown = [] then [] else [.unknownServices action p.unknown]

/-- A batch records what became of the known names, and the unknown ones at the end. -/
theorem Executor.gains_runBatch {x : Setting} {action : ServiceAction} {b : Partition}
    {p q : Progress} (known : ∀ n ∈ b.known, x.catalog.has n)
    (h : exec (runBatch x action b) p = (.ok (), q)) :
    ∃ os t, Tells [] b.known os ∧ p.tally.Gains os t ∧
      q.tally.report = t.reportWith (b.complaints action.name) := by
  obtain ⟨_, r, hall, hrest⟩ := exec_bind_eq_ok.mp h
  obtain ⟨os, htells, hgains⟩ := gains_changeAll known hall
  refine ⟨os, r.tally, htells, hgains, ?_⟩
  cases hunknown : b.unknown with
  | nil =>
    rw [hunknown] at hrest
    cases hrest
    simp [Partition.complaints, hunknown, Tally.reportWith]
  | cons n ns =>
    rw [hunknown] at hrest
    cases hrest
    simp [Partition.complaints, hunknown, Tally.reportWith]

variable {document : Json} {ctx : Context} {r : Resolution} {past past' : List Call}

/-! ### The operations on lists of names -/

theorem reports_changeAll {x : Setting} {action : ServiceAction} {names enabled : List Text}
    {done : Progress} (known : ∀ n ∈ names, x.catalog.has n) (distinct : names.Nodup)
    (h : exec (changeAll x action names) (start past enabled) = (.ok (), done)) :
    done.tally.report.Shares names ∧ done.tally.report.Explained [] := by
  obtain ⟨os, htells, hgains⟩ := gains_changeAll known h
  exact ⟨hgains.shares htells distinct [], hgains.explained []⟩

theorem reports_resolveRequest (attached : ctx.state.attached = true) {request : Request}
    (named : request.names ≠ []) (h : exec (resolveRequest ctx request) past = (.ok r, past')) :
    r.report.Shares ((dedupe request.names).filter (ctx.catalog.knows request.allowBeta)) ∧
      r.report.Explained
        ((ctx.catalog.partition request.allowBeta (dedupe request.names)).complaints
          request.action.name) := by
  obtain ⟨p, hexec, rfl⟩ := session_of_resolveRequest attached named h
  obtain ⟨os, t, htells, hgains, hreport⟩ := gains_runBatch
    (fun n hn => has_of_knows (mem_known.mp hn).2) hexec
  rw [Resolution.ofSession, hreport]
  exact ⟨hgains.shares htells ((nodup_dedupe _).filter _) _, hgains.explained _⟩

def Context.defaultsOf (ctx : Context) (contract : Contract) : List Text :=
  ctx.catalog.enableOrder <| ctx.catalog.defaults.filter fun n =>
    decide (n ∈ contract.entitlements) && ctx.catalog.isAvailable n ctx.series

theorem reports_resolveAttach (unattached : ctx.state.attached = false) {token : Text}
    {contract : Contract}
    (h : exec (resolveAttach ctx token true (some contract)) past = (.ok r, past')) :
    r.report.Shares (ctx.defaultsOf contract) ∧ r.report.Explained [] := by
  simp only [resolveAttach, LifecycleAction.obstacle?, unattached, Bool.false_eq_true, if_false] at h
  obtain ⟨done, _, hsession, h⟩ := exec_bind_eq_ok.mp h
  cases h
  let x := ctx.setting (ctx.freshAttachment contract token none) true
  exact reports_changeAll (fun n hn => has_of_mem_defaults (x := x) hn) (nodup_sortBy _ _)
    (exec_session_eq_ok.mp hsession).1

theorem reports_resolveDetach (attached : ctx.state.attached = true)
    (h : exec (resolveDetach ctx) past = (.ok r, past')) :
    r.report.Shares (ctx.catalog.disableOrder (ctx.state.enabled.filter ctx.catalog.has)) ∧
      r.report.Explained [] := by
  simp only [resolveDetach, LifecycleAction.obstacle?, attached, if_true] at h
  obtain ⟨done, _, hsession, h⟩ := exec_bind_eq_ok.mp h
  cases h
  exact reports_changeAll (fun n hn => (List.mem_filter.mp (mem_sortBy.mp hn)).2) (nodup_sortBy _ _)
    (exec_session_eq_ok.mp hsession).1

/-- With services that come from a document and a handler that answers, every batch comes to its end, and
its report accounts for all its names. -/
theorem batches_account_for_names (accepted : ofDocument document = .ok ctx.catalog)
    (answers : ctx.handler.Answers) (past : List Call) :
    (∀ request : Request, ctx.state.attached = true → request.names ≠ [] →
      ∃ r past', exec (resolveRequest ctx request) past = (.ok r, past') ∧
        r.report.Shares ((dedupe request.names).filter (ctx.catalog.knows request.allowBeta)) ∧
        r.report.Explained
          ((ctx.catalog.partition request.allowBeta (dedupe request.names)).complaints
            request.action.name)) ∧
    (∀ token contract, ctx.state.attached = false →
      ∃ r past', exec (resolveAttach ctx token true (some contract)) past = (.ok r, past') ∧
        r.report.Shares (ctx.defaultsOf contract) ∧ r.report.Explained []) ∧
    (ctx.state.attached = true →
      ∃ r past', exec (resolveDetach ctx) past = (.ok r, past') ∧
        r.report.Shares (ctx.catalog.disableOrder (ctx.state.enabled.filter ctx.catalog.has)) ∧
        r.report.Explained []) := by
  have wf := wellFormed_of_ofDocument accepted
  refine ⟨fun request attached named => ?_, fun token contract unattached => ?_, fun attached => ?_⟩
  · rcases hexec : exec (resolveRequest ctx request) past with ⟨f | r, past'⟩
    · exact absurd (exec_resolveRequest_error wf answers hexec).1 named
    · exact ⟨r, past', rfl, reports_resolveRequest attached named hexec⟩
  · obtain ⟨r, past', hexec⟩ := exec_of_throws
      (throws_resolveAttach wf token true (some contract)) answers.not_raises past
    exact ⟨r, past', hexec, reports_resolveAttach unattached hexec⟩
  · obtain ⟨r, past', hexec⟩ := exec_of_throws (AutoAttach.throws_resolveDetach wf)
      answers.not_raises past
    exact ⟨r, past', hexec, reports_resolveDetach attached hexec⟩

/-- On the cluttered machine `b` is on record twice, and `q` is in no catalog. -/
theorem batches_account_for_names_cluttered :
    (∃ r past', exec (resolveRequest clutteredContext
        ⟨.disable, ["b", "q", "a", "b"], true, true⟩) [] = (.ok r, past') ∧
      r.report.Shares ["b", "a"] ∧ r.report.Explained [.unknownServices "disable" ["q"]]) ∧
    (∃ r past', exec (resolveAttach stumbleContext "t" true (some ⟨"k", ["b", "a"]⟩)) [] =
        (.ok r, past') ∧
      r.report.Shares (stumbleContext.defaultsOf ⟨"k", ["b", "a"]⟩) ∧ r.report.Explained []) ∧
    ∃ r past', exec (resolveDetach clutteredContext) [] = (.ok r, past') ∧
      r.report.Shares (pair.disableOrder ["b", "b", "a"]) ∧ r.report.Explained [] := by
  obtain ⟨hrequest, -, hdetach⟩ := batches_account_for_names ofDocument_pair answers_cluttered []
  obtain ⟨-, hattach, -⟩ := batches_account_for_names ofDocument_pair answers_stumble []
  exact ⟨hrequest _ rfl (by decide), hattach "t" ⟨"k", ["b", "a"]⟩ rfl, hdetach rfl⟩

end Subscription
