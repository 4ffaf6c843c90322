import Subscription.Proofs.Executor.Alone
import Subscription.Proofs.Resolution.Batches
import Subscription.Proofs.Resolution.Request
import Subscription.View.Status

/-!
What the status promises. It says of each service whether a request could enable it, in words of its own;
the executor goes through checks in an order of its own. The two agree: a service shows as disabled exactly
when a request without consent gets past every check but the one for other services. And what a request
reports as processed shows in the status of the machine it leaves.
-/

namespace Subscription

open Executor Catalog

variable {document : Json} {c : Catalog} {ctx : Context} {r : Request} {res : Resolution}
  {s : Service} {n : Text} {past past' : List Call}

/-! ### Rows -/

namespace Status

def rowsOf (st : Status) (n : Text) : List StatusRow :=
  st.rows.filter (·.name = n)

/-- A service that is listed has one row, its own. -/
theorem rowsOf_ofAttachment {includeBeta : Bool} (hs : s ∈ c.list includeBeta) (a : Attachment)
    (series : Text) :
    (ofAttachment c a series includeBeta).rowsOf s.name = [row c a series s] := by
  have hdistinct : ((c.list includeBeta).map (·.name)).Nodup :=
    c.distinct.sublist (List.filter_sublist.map _)
  have hone : (c.list includeBeta).filter (·.name = s.name) = [s] := by
    refine List.perm_singleton.mp ((List.perm_ext_iff_of_nodup (hdistinct.of_map.filter _)
      (List.nodup_singleton s)).mpr fun t => ?_)
    rw [List.mem_filter, decide_eq_true_eq, List.mem_singleton]
    refine ⟨fun ⟨ht, hname⟩ => List.inj_on_of_nodup_map hdistinct ht hs hname, ?_⟩
    rintro rfl
    exact ⟨hs, rfl⟩
  have hnames : (fun r : StatusRow => decide (r.name = s.name)) ∘ row c a series =
      fun t => decide (t.name = s.name) := rfl
  rw [rowsOf, ofAttachment, List.filter_map, hnames, hone, List.map_singleton]

theorem status_row_eq_enabled_iff {a : Attachment} {series : Text} :
    (row c a series s).status = .enabled ↔ s.name ∈ a.enabled := by
  simp only [row]
  split
  · next h => simp [h]
  · next h => split <;> simp [h]

theorem status_row_eq_disabled_iff {yes : Bool} :
    (row ctx.catalog ctx.state ctx.series s).status = .disabled ↔
      ctx.state.attached = true ∧
        refusal? (ctx.setting ctx.state yes) .enable s ctx.state.enabled = none := by
  rw [refusal?_eq_none_iff, obstacle?_enable_eq_none_iff]
  simp only [row, pending, Context.setting]
  by_cases hn : s.name ∈ ctx.state.enabled
  · simp [hn]
  · simp [hn, and_assoc]

end Status

/-! ### Requests for one service without consent -/

def Context.CallsFor (ctx : Context) (r : Request) (past : List Call) (s : Service) : Prop :=
  ∃ new, (exec (resolveRequest ctx r) past).2 = past ++ new ∧
    ∃ call ∈ new, call.action = r.action ∧ call.service = s

def Context.FailsWith (ctx : Context) (r : Request) (past : List Call) (n code : Text) : Prop :=
  ∃ res past', exec (resolveRequest ctx r) past = (.ok res, past') ∧ n ∈ res.report.failed ∧
    ∃ e ∈ res.report.errors, e.service = some n ∧ e.code = code

/-- A refusal is never about other services. -/
theorem Executor.code_of_refusal? {x : Setting} {action : ServiceAction} {enabled : List Text}
    {m : Message} (h : refusal? x action s enabled = some m) (a b : Text) :
    m.code ≠ (conflictMessage action a b).code := by
  have hcases : m = .notEntitled s.title ∨ m = .notAvailable s.title x.series ∨
      m = alreadyMessage action s.title := by
    unfold refusal? Setting.obstacle? at h
    grind
  cases action
  all_goals
    rcases hcases with rfl | rfl | rfl
    all_goals
      simp only [alreadyMessage, conflictMessage, Message.code]
      decide

/-- A request for one service without consent has the handler called for it, or fails because of another
service, exactly when the service is not refused itself. -/
theorem reaches_iff (wf : ctx.catalog.WellFormed) (attached : ctx.state.attached = true)
    (hs : s ∈ ctx.catalog.services) (past : List Call) :
    ctx.CallsFor ⟨.enable, [s.name], false, true⟩ past s ∨
        ctx.FailsWith ⟨.enable, [s.name], false, true⟩ past s.name "required-service-disabled" ↔
      refusal? (ctx.setting ctx.state false) .enable s ctx.state.enabled = none := by
  have hfound : ctx.catalog.find? s.name = some s := find?_eq_some_iff.mpr ⟨hs, rfl⟩
  have known : ctx.catalog.knows true s.name = true := by simp [knows, hfound]
  obtain ⟨fuel, hfuel, hexec⟩ :=
    exec_resolveRequest_single .enable false attached known hfound past
  have halone : Alone (ctx.setting ctx.state false) .enable s s.name
      (start past ctx.state.enabled) _ :=
    alone_changeService wf rfl hfound (Nat.zero_lt_of_lt hfuel) _
  rw [Context.CallsFor, Context.FailsWith, hexec]
  generalize exec (changeService (ctx.setting ctx.state false) .enable fuel s s.name)
    (start past ctx.state.enabled) = result at halone ⊢
  cases halone with
  | @refused m href =>
    refine iff_of_false ?_ fun accepted => Option.some_ne_none m (href.symm.trans accepted)
    rintro (⟨new, hcalls, call, hcall, -⟩ | ⟨res, past', hres, -, e, he, -, hcode⟩)
    · have hnone : new = [] := by simpa [recorded, start] using hcalls
      rw [hnone] at hcall
      cases hcall
    · cases hres
      obtain rfl : e = .ofService s.name m := by
        simpa [Resolution.ofSession, Tally.report, Tally.fail, Tally.empty, start] using he
      exact code_of_refusal? href "" "" hcode
  | stopped accepted =>
    refine iff_of_true (Or.inr ⟨_, _, rfl, ?_, _, List.mem_singleton_self _, rfl, rfl⟩) accepted
    simp [Resolution.ofSession, Tally.report]
  | called ready =>
    refine iff_of_true (Or.inl ⟨[(ctx.setting ctx.state false).call .enable s], ?_, _,
      List.mem_singleton_self _, rfl, rfl⟩) ready.accepted
    rw [exec_invoke]
    cases (ctx.setting ctx.state false).handler.respond (start past ctx.state.enabled).calls
      ((ctx.setting ctx.state false).call .enable s) <;> rfl

/-! ### What a request leaves -/

/-- Only a request that names something on an attached machine processes anything. -/
theorem passable_of_processed (h : exec (resolveRequest ctx r) past = (.ok res, past'))
    (hn : n ∈ res.report.processed) : ctx.state.attached = true ∧ r.names ≠ [] := by
  rw [resolveRequest, exec_bind, exec_liftExcept, Request.check] at h
  by_cases hempty : r.names.isEmpty
  · rw [if_pos hempty] at h
    cases h
  · rw [if_neg hempty] at h
    refine ⟨?_, by simpa using hempty⟩
    dsimp only at h
    split at h
    · cases h
      cases hn
    · next hobstacle => exact Partition.attached_of_obstacle? hobstacle

/-- What a request reports as processed is a service that it leaves changed: neither its own turn nor that
of a later name undoes it. -/
theorem not_pending_of_processed (wf : ctx.catalog.WellFormed) (nodup : ctx.state.enabled.Nodup)
    (h : exec (resolveRequest ctx r) past = (.ok res, past')) (hn : n ∈ res.report.processed) :
    ctx.catalog.has n ∧ pending r.action (res.attachment ctx.state).enabled n = false := by
  obtain ⟨attached, named⟩ := passable_of_processed h hn
  obtain ⟨hshares, -⟩ := reports_resolveRequest attached named h
  have hknown : n ∈ (ctx.catalog.partition r.allowBeta (dedupe r.names)).known :=
    hshares.processed.subset hn
  have hnofail : n ∉ res.report.failed := fun hfailed =>
    List.disjoint_of_nodup_append (hshares.each.nodup_iff.mpr hshares.distinct) hn hfailed
  have hall : ∀ m ∈ (ctx.catalog.partition r.allowBeta (dedupe r.names)).known,
      (ctx.setting ctx.state r.assumeYes).catalog.has m := fun m hm =>
    has_of_knows (mem_known.mp hm).2
  obtain ⟨p, hsession, rfl⟩ := session_of_resolveRequest attached named h
  rw [exec_runBatch] at hsession
  rcases hexec : exec (changeAll (ctx.setting ctx.state r.assumeYes) r.action
    (ctx.catalog.partition r.allowBeta (dedupe r.names)).known)
    (start past ctx.state.enabled) with ⟨f | _, q⟩
  all_goals
    rw [hexec] at hsession
    cases hsession
  refine ⟨hall n hknown, ?_⟩
  rw [Resolution.attachment_ofSession]
  refine ((turns_of_changeAll wf hall nodup hexec).failure_or_done nodup hknown
    List.not_mem_nil).resolve_left fun hfailed => hnofail (Tally.mem_withOutcome.mpr ?_)
  rwa [Partition.outcomes_concluded]

/-- A service shows as disabled exactly when the machine is attached and a request for it without consent
has the handler called for it, or fails because of a service it requires. And what a request reports as
processed shows as enabled on the machine it leaves if that was asked for, and otherwise does not. -/
theorem status_agrees_with_requests (accepted : ofDocument document = .ok ctx.catalog)
    (nodup : ctx.state.enabled.Nodup) :
    (∀ s ∈ ctx.catalog.services, ∃ row,
      (Status.ofAttachment ctx.catalog ctx.state ctx.series true).rowsOf s.name = [row] ∧
        ∀ past, row.status = .disabled ↔ ctx.state.attached = true ∧
          (ctx.CallsFor ⟨.enable, [s.name], false, true⟩ past s ∨ ctx.FailsWith
            ⟨.enable, [s.name], false, true⟩ past s.name "required-service-disabled")) ∧
    ∀ r past,
      (ctx.handler.Answers → r.names ≠ [] →
        ∃ res past', exec (resolveRequest ctx r) past = (.ok res, past')) ∧
      ∀ res past', exec (resolveRequest ctx r) past = (.ok res, past') →
        ∀ n ∈ res.report.processed, ∃ row, (Status.ofAttachment ctx.catalog
            (res.attachment ctx.state) ctx.series true).rowsOf n = [row] ∧
          (row.status = .enabled ↔ r.action = .enable) := by
  have wf := wellFormed_of_ofDocument accepted
  have hlisted : ∀ {s}, s ∈ ctx.catalog.services → s ∈ ctx.catalog.list true := fun hs =>
    List.mem_filter.mpr ⟨hs, rfl⟩
  refine ⟨fun s hs => ⟨_, Status.rowsOf_ofAttachment (hlisted hs) _ _, fun past => ?_⟩,
    fun r past => ⟨fun answers named => ?_, fun res past' h n hn => ?_⟩⟩
  · rw [Status.status_row_eq_disabled_iff]
    exact and_congr_right fun attached => (reaches_iff wf attached hs past).symm
  · rcases hexec : exec (resolveRequest ctx r) past with ⟨f | res, past'⟩
    · exact absurd (exec_resolveRequest_error wf answers hexec).1 named
    · exact ⟨res, past', rfl⟩
  · obtain ⟨known, hdone⟩ := not_pending_of_processed wf nodup h hn
    obtain ⟨s, hs⟩ := has_iff.mp known
    obtain rfl := name_of_find? hs
    refine ⟨_, Status.rowsOf_ofAttachment (hlisted (find?_eq_some_iff.mp hs).1) _ _, ?_⟩
    rw [Status.status_row_eq_enabled_iff]
    cases haction : r.action with
    | enable => simpa [pending, haction] using hdone
    | disable => simpa [pending, haction] using hdone

/-- In `detour` everything shows as disabled; of `a` and `c` only `c` is then enabled, and shows so. -/
theorem status_agrees_with_requests_detour :
    (∀ s ∈ detour.services, ∃ row,
      (Status.ofAttachment detour detourContext.state "jammy" true).rowsOf s.name = [row] ∧
        ∀ past, row.status = .disabled ↔ detourContext.state.attached = true ∧
          (detourContext.CallsFor ⟨.enable, [s.name], false, true⟩ past s ∨ detourContext.FailsWith
            ⟨.enable, [s.name], false, true⟩ past s.name "required-service-disabled")) ∧
    ∃ res past', exec (resolveRequest detourContext ⟨.enable, ["a", "c"], false, false⟩) [] =
        (.ok res, past') ∧ res.report.processed = ["c"] ∧
      ∃ row, (Status.ofAttachment detour (res.attachment detourContext.state) "jammy" true).rowsOf "c" =
        [row] ∧ row.status = .enabled := by
  obtain ⟨hrows, hrequests⟩ := @status_agrees_with_requests detourDocument detourContext
    ofDocument_detour (by decide)
  refine ⟨hrows, ?_⟩
  obtain ⟨hends, hshown⟩ := hrequests ⟨.enable, ["a", "c"], false, false⟩ []
  obtain ⟨res, past', h⟩ := hends Handler.obedient_system.answers (by decide)
  have hprocessed : ((exec (resolveRequest detourContext ⟨.enable, ["a", "c"], false, false⟩) []).1.map
      (·.report.processed)) = .ok ["c"] := rfl
  rw [h] at hprocessed
  have hprocessed : res.report.processed = ["c"] := Except.ok.inj hprocessed
  obtain ⟨row, hrow, hstatus⟩ := hshown res past' h "c" (by rw [hprocessed]; decide)
  exact ⟨res, past', h, hprocessed, row, hrow, hstatus.mpr rfl⟩

end Subscription
