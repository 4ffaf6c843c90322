import Subscription.Proofs.Executor.Session

/-!
Resolutions as sessions. Each of them runs the executor once or more, on an attachment, and puts a report
and an attachment together from what the sessions leave. A request on an attached machine is a single
session; its attachment is stored only when the session has changed something.
-/

namespace Subscription

theorem Catalog.has_of_knows {c : Catalog} {allowBeta : Bool} {name : Text}
    (h : c.knows allowBeta name = true) : c.has name := by
  cases hs : c.find? name with
  | none => simp [knows, hs] at h
  | some s => exact has_of_find? hs

theorem Partition.attached_of_obstacle? {p : Partition} {action : Text} {a : Attachment}
    (h : p.obstacle? action a = none) : a.attached = true := by
  by_contra hne
  rw [obstacle?, if_neg hne, classify] at h
  by_cases hknown : p.known.isEmpty
  · simp [hknown, batchError] at h
  · by_cases hunknown : p.unknown.isEmpty <;> simp [hknown, hunknown, batchError] at h

theorem exec_session (ctx : Context) (a : Attachment) (yes : Bool)
    (body : Executor.Setting → Executor.Run Unit) (past : List Call) :
    exec (ctx.session a yes body) past =
      match exec (body (ctx.setting a yes)) (Executor.start past a.enabled) with
      | (.ok _, p) => (.ok p, p.calls)
      | (.error f, p) => (.error f, p.calls) := by
  show (let (result, p) := exec (body (ctx.setting a yes)) (Executor.start past a.enabled)
    (result.map fun _ => p, p.calls)) = _
  rcases exec (body (ctx.setting a yes)) (Executor.start past a.enabled) with ⟨_ | _, p⟩ <;> rfl

theorem exec_session_eq_ok {ctx : Context} {a : Attachment} {yes : Bool}
    {body : Executor.Setting → Executor.Run Unit} {past past' : List Call} {p : Executor.Progress} :
    exec (ctx.session a yes body) past = (.ok p, past') ↔
      exec (body (ctx.setting a yes)) (Executor.start past a.enabled) = (.ok (), p) ∧
        p.calls = past' := by
  rw [exec_session]
  rcases exec (body (ctx.setting a yes)) (Executor.start past a.enabled) with ⟨_ | _, q⟩
  · simp
  · simp only [Prod.mk.injEq, Except.ok.injEq, true_and]
    exact and_congr_right fun hq => by rw [hq]

theorem calls_session {ctx : Context} {a : Attachment} {yes : Bool}
    {body : Executor.Setting → Executor.Run Unit} {past : List Call} :
    (exec (ctx.session a yes body) past).2 =
      (exec (body (ctx.setting a yes)) (Executor.start past a.enabled)).2.calls := by
  rw [exec_session]
  rcases exec (body (ctx.setting a yes)) (Executor.start past a.enabled) with ⟨_ | _, q⟩ <;> rfl

def Resolution.ofSession (a : Attachment) (p : Executor.Progress) : Resolution :=
  ⟨p.tally.report, if p.enabled = a.enabled then none else some (a.after p)⟩

@[simp] theorem Resolution.attachment_ofSession (a : Attachment) (p : Executor.Progress) :
    (Resolution.ofSession a p).attachment a = a.after p := by
  unfold attachment ofSession
  split
  · next h => simp [Attachment.after, h]
  · rfl

/-- A request on an attached machine is one session. -/
theorem exec_resolveRequest {ctx : Context} (attached : ctx.state.attached = true) {r : Request}
    (named : r.names ≠ []) (past : List Call) :
    exec (resolveRequest ctx r) past =
      match exec (Executor.runBatch (ctx.setting ctx.state r.assumeYes) r.action
        (ctx.catalog.partition r.allowBeta (dedupe r.names)))
        (Executor.start past ctx.state.enabled) with
      | (.ok _, p) => (.ok (.ofSession ctx.state p), p.calls)
      | (.error f, p) => (.error f, p.calls) := by
  have hcheck : r.check = .ok () := by
    simp [Request.check, named]
  simp only [resolveRequest, exec_bind, hcheck, exec_liftExcept, Partition.obstacle?, attached,
    if_true, exec_session]
  rcases exec (Executor.runBatch (ctx.setting ctx.state r.assumeYes) r.action
    (ctx.catalog.partition r.allowBeta (dedupe r.names)))
    (Executor.start past ctx.state.enabled) with ⟨_ | _, p⟩ <;> rfl

/-- A request that is carried out is a session that comes to its end. -/
theorem session_of_resolveRequest {ctx : Context} (attached : ctx.state.attached = true) {r : Request}
    (named : r.names ≠ []) {past past' : List Call} {res : Resolution}
    (h : exec (resolveRequest ctx r) past = (.ok res, past')) :
    ∃ p, exec (Executor.runBatch (ctx.setting ctx.state r.assumeYes) r.action
        (ctx.catalog.partition r.allowBeta (dedupe r.names)))
        (Executor.start past ctx.state.enabled) = (.ok (), p) ∧
      res = .ofSession ctx.state p := by
  rw [exec_resolveRequest attached named] at h
  rcases hexec : exec (Executor.runBatch (ctx.setting ctx.state r.assumeYes) r.action
    (ctx.catalog.partition r.allowBeta (dedupe r.names)))
    (Executor.start past ctx.state.enabled) with ⟨f | ⟨⟩, p⟩
  all_goals
    rw [hexec] at h
    cases h
  exact ⟨p, rfl, rfl⟩

/-- Where all its names are known, a request is their turns. -/
theorem exec_resolveRequest_of_known {ctx : Context} (attached : ctx.state.attached = true)
    {r : Request} (named : r.names ≠ []) (known : ∀ n ∈ r.names, ctx.catalog.knows r.allowBeta n)
    (past : List Call) :
    exec (resolveRequest ctx r) past =
      match exec (Executor.changeAll (ctx.setting ctx.state r.assumeYes) r.action (dedupe r.names))
        (Executor.start past ctx.state.enabled) with
      | (.ok _, p) => (.ok (.ofSession ctx.state p), p.calls)
      | (.error f, p) => (.error f, p.calls) := by
  have hpartition : ctx.catalog.partition r.allowBeta (dedupe r.names) = ⟨dedupe r.names, []⟩ := by
    have hall : ∀ n ∈ dedupe r.names, ctx.catalog.knows r.allowBeta n = true := fun n hn =>
      known n (mem_dedupe.mp hn)
    simpa [Catalog.partition] using hall
  rw [exec_resolveRequest attached named, hpartition, Executor.exec_runBatch]
  rcases exec (Executor.changeAll (ctx.setting ctx.state r.assumeYes) r.action (dedupe r.names))
    (Executor.start past ctx.state.enabled) with ⟨_ | _, p⟩ <;> rfl

theorem yields_session {ctx : Context} {a : Attachment} {yes : Bool}
    {body : Executor.Setting → Executor.Run Unit} {action : ServiceAction}
    (h : ∀ past, Executor.Moves (ctx.setting a yes) action (Executor.start past a.enabled)
      (exec (body (ctx.setting a yes)) (Executor.start past a.enabled)).2) :
    Yields (ctx.session a yes body) fun p =>
      ∃ past, Executor.Moves (ctx.setting a yes) action (Executor.start past a.enabled) p := by
  intro past p calls hexec
  have hmoves := h past
  rw [(exec_session_eq_ok.mp hexec).1] at hmoves
  exact ⟨past, hmoves⟩

theorem throws_session {ctx : Context} {a : Attachment} {yes : Bool}
    {body : Executor.Setting → Executor.Run Unit} {F : Fault → Prop}
    (h : Throws (body (ctx.setting a yes)) F) : Throws (ctx.session a yes body) F := by
  intro past f calls hexec
  rw [exec_session] at hexec
  rcases hr : exec (body (ctx.setting a yes)) (Executor.start past a.enabled) with ⟨e | _, q⟩
  · rw [hr] at hexec
    cases hexec
    exact h _ _ _ hr
  · rw [hr] at hexec
    cases hexec

end Subscription
