import Subscription.Proofs.Executor.Uniform
import Subscription.Proofs.Resolution.Batches

/-!
A batch is no more than its names. A request for several services leaves the machine where requests for
the single services leave it, made one after the other, and calls the handler just as these do: what the
session of a batch knows beyond the enabled services only saves turns that would come to nothing.
-/

namespace Subscription

open Executor Catalog

def Request.knownNames (r : Request) (c : Catalog) : List Text :=
  (c.partition r.allowBeta (dedupe r.names)).known

def Context.oneByOne (ctx : Context) (r : Request) : List Text → Resolving Attachment
  | [] => pure ctx.state
  | n :: ns => do
    let one ← resolveRequest ctx { r with names := [n] }
    oneByOne { ctx with state := one.attachment ctx.state } r ns

def Attachment.left (a : Attachment) :
    Except Fault Unit × Progress → Except Fault Attachment × List Call
  | (.ok _, p) => (.ok (a.after p), p.calls)
  | (.error f, p) => (.error f, p.calls)

variable {document : Json} {ctx : Context} {r : Request} {names : List Text} {p q : Progress}

theorem Attachment.left_eq_of_alike {a : Attachment} {x y : Except Fault Unit × Progress}
    (h : AlikeEnds x y) : a.left x = a.left y := by
  obtain ⟨result, p⟩ := x
  obtain ⟨result', q⟩ := y
  obtain ⟨hresult, hcalls, henabled⟩ := h
  dsimp only at hresult hcalls henabled
  subst hresult
  cases result <;> simp [left, Attachment.after, hcalls, henabled]

/-- A batch leaves what the turns of its known names leave. -/
theorem exec_attachment_resolveRequest (attached : ctx.state.attached = true) (named : r.names ≠ [])
    (past : List Call) :
    exec ((·.attachment ctx.state) <$> resolveRequest ctx r) past =
      ctx.state.left (exec (changeAll (ctx.setting ctx.state r.assumeYes) r.action
        (r.knownNames ctx.catalog)) (start past ctx.state.enabled)) := by
  rw [Request.knownNames, ← Attachment.left_eq_of_alike (alike_runBatch _ _), map_eq_pure_bind,
    exec_bind, exec_resolveRequest attached named]
  rcases exec (runBatch (ctx.setting ctx.state r.assumeYes) r.action
    (ctx.catalog.partition r.allowBeta (dedupe r.names))) (start past ctx.state.enabled) with
    ⟨f | u, p⟩
  · rfl
  · simp [Attachment.left]

theorem exec_attachment_single (attached : ctx.state.attached = true) {n : Text}
    (known : ctx.catalog.knows r.allowBeta n = true) (past : List Call) :
    exec ((·.attachment ctx.state) <$> resolveRequest ctx { r with names := [n] }) past =
      ctx.state.left (exec (change (ctx.setting ctx.state r.assumeYes) r.action n)
        (start past ctx.state.enabled)) := by
  have hnames : ({ r with names := [n] } : Request).knownNames ctx.catalog = [n] := by
    simp [Request.knownNames, Catalog.partition, dedupe, known]
  rw [exec_attachment_resolveRequest attached (by simp), hnames, exec_changeAll_single]

/-- The requests for the single names move the machine as the turns of a session do. -/
theorem exec_oneByOne (known : ∀ n ∈ names, ctx.catalog.knows r.allowBeta n) :
    ∀ (a : Attachment) (p : Progress), a.attached = true → p.enabled = a.enabled →
      exec ({ ctx with state := a }.oneByOne r names) p.calls =
        a.left (exec (changeAll (ctx.setting a r.assumeYes) r.action names) p) := by
  induction names with
  | nil =>
    intro a p attached henabled
    show (Except.ok a, p.calls) = (Except.ok (a.after p), p.calls)
    rw [Attachment.after, henabled]
  | cons n names ih =>
    intro a p attached henabled
    have hn := known n List.mem_cons_self
    let ctx' : Context := { ctx with state := a }
    -- The request for the first name leaves what its turn in the session leaves.
    have hsingle : exec ((·.attachment a) <$> resolveRequest ctx' { r with names := [n] }) p.calls =
        a.left (exec (change (ctx.setting a r.assumeYes) r.action n) p) := by
      rw [Attachment.left_eq_of_alike (alike_change_start (x := ctx.setting a r.assumeYes)
        (has_of_knows hn) p), henabled]
      exact @exec_attachment_single ctx' r attached n hn p.calls
    have hrest : ctx'.oneByOne r (n :: names) =
        ((·.attachment a) <$> resolveRequest ctx' { r with names := [n] }) >>= fun b =>
          { ctx with state := b }.oneByOne r names := by
      rw [Context.oneByOne, map_eq_pure_bind, bind_assoc]
      simp only [pure_bind]
      rfl
    show exec (ctx'.oneByOne r (n :: names)) p.calls = _
    rw [hrest, exec_bind, hsingle, changeAll, exec_bind]
    rcases exec (change (ctx.setting a r.assumeYes) r.action n) p with ⟨f | u, q⟩
    · rfl
    · exact ih (fun m hm => known m (List.mem_cons_of_mem n hm)) (a.after q) q attached rfl

/-- A batch comes to the same attachment, or breaks off with the same fault, as the requests for its known
names one by one, and the handler has had the same calls; with a handler that answers it comes to its end.
Only that a request has to name something is not seen from its known names. -/
theorem batch_moves_name_by_name (accepted : ofDocument document = .ok ctx.catalog)
    (attached : ctx.state.attached = true) (r : Request) (past : List Call) :
    exec ((·.attachment ctx.state) <$> resolveRequest ctx r) past =
        exec (do r.check; ctx.oneByOne r (r.knownNames ctx.catalog)) past ∧
      (r.names ≠ [] → ctx.handler.Answers → ∃ a calls,
        exec (ctx.oneByOne r (r.knownNames ctx.catalog)) past = (.ok a, calls)) := by
  have hsame : r.names ≠ [] → exec ((·.attachment ctx.state) <$> resolveRequest ctx r) past =
      exec (ctx.oneByOne r (r.knownNames ctx.catalog)) past := fun named => by
    have hknown : ∀ n ∈ r.knownNames ctx.catalog, ctx.catalog.knows r.allowBeta n :=
      fun n hn => (mem_known.mp hn).2
    rw [exec_attachment_resolveRequest attached named past]
    exact (exec_oneByOne hknown ctx.state (start past ctx.state.enabled) attached rfl).symm
  refine ⟨?_, fun named answers => ?_⟩
  · by_cases named : r.names = []
    · have hcheck : r.check = .error (.noServiceNames r.action) := by simp [Request.check, named]
      simp only [resolveRequest, map_eq_pure_bind, exec_bind, exec_liftExcept, hcheck]
    · have hcheck : r.check = .ok () := by simp [Request.check, named]
      rw [hsame named, exec_bind, exec_liftExcept, hcheck]
  · obtain ⟨report, past', hexec, -⟩ :=
      (batches_account_for_names accepted answers past).1 r attached named
    rw [← hsame named, map_eq_pure_bind, exec_bind, hexec]
    exact ⟨_, _, rfl⟩

/-- On the cluttered machine `b`, of which there are two, takes `a` along; the turn of `a` comes to
nothing, in the batch as in a request of its own. -/
theorem batch_moves_name_by_name_cluttered :
    exec ((·.attachment clutteredContext.state) <$>
        resolveRequest clutteredContext ⟨.disable, ["b", "q", "a", "b"], true, false⟩) [] =
      exec (do
        Request.check ⟨.disable, ["b", "q", "a", "b"], true, false⟩
        clutteredContext.oneByOne ⟨.disable, ["b", "q", "a", "b"], true, false⟩ ["b", "a"]) [] ∧
      ∃ a calls, exec (clutteredContext.oneByOne ⟨.disable, ["b", "q", "a", "b"], true, false⟩
        ["b", "a"]) [] = (.ok a, calls) := by
  obtain ⟨hsame, hends⟩ := @batch_moves_name_by_name pairDocument clutteredContext ofDocument_pair rfl
    ⟨.disable, ["b", "q", "a", "b"], true, false⟩ []
  exact ⟨hsame, hends (by decide) answers_cluttered⟩

end Subscription
