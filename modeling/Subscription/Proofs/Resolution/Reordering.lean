import Subscription.Proofs.Executor.Calls
import Subscription.Proofs.Executor.Stretch
import Subscription.Proofs.Resolution.Granted
import Subscription.Proofs.Resolution.Rounds

/-!
Requests in another order. With consent to all that is in the way, the names of a request do not get into each
other's way, although one may be enabled or disabled on behalf of another and a cascade may stop on its way:
what each of them changes, and how its turn ends, can be told from the state that the request starts from.
-/

namespace Subscription

open Executor Catalog

variable {document : Json} {ctx : Context} {r : Request} {res res' : Resolution} {names : List Text}

/-- A request has done to each service, and said of each name, what can be told from the start. -/
structure Context.Told (ctx : Context) (r : Request) (res : Resolution) : Prop where
  enabled : ∀ m, pending r.action (res.attachment ctx.state).enabled m = true ↔
    pending r.action ctx.state.enabled m = true ∧ ∀ n ∈ r.names, ctx.catalog.knows r.allowBeta n = true →
      m ∉ (ctx.setting ctx.state r.assumeYes).stretch r.action ctx.state.enabled n
  processed : ∀ n, n ∈ res.report.processed ↔ n ∈ r.names ∧ ctx.catalog.knows r.allowBeta n = true ∧
    (ctx.setting ctx.state r.assumeYes).fate r.action ctx.state.enabled n = .success
  failed : ∀ n, n ∈ res.report.failed ↔ n ∈ r.names ∧ ctx.catalog.knows r.allowBeta n = true ∧
    (ctx.setting ctx.state r.assumeYes).fate r.action ctx.state.enabled n = .failure

/-- A request that may change what is in its way, under a handler that carries out every call, goes as told. -/
theorem told_resolveRequest (wf : ctx.catalog.WellFormed) (transitive : ctx.catalog.Transitive)
    (attached : ctx.state.attached = true) (nodup : ctx.state.enabled.Nodup)
    (closed : ∀ n ∈ ctx.state.enabled, ∀ r ∈ ctx.catalog.requirementsOf n, r ∈ ctx.state.enabled)
    (obedient : ctx.handler.Obedient) (yes : r.assumeYes = true) (named : r.names ≠ [])
    (past : List Call) :
    ∃ res past', exec (resolveRequest ctx r) past = (.ok res, past') ∧ ctx.Told r res := by
  let x := ctx.setting ctx.state r.assumeYes
  let known := (ctx.catalog.partition r.allowBeta (dedupe r.names)).known
  have hknown : ∀ n, n ∈ known ↔ n ∈ r.names ∧ ctx.catalog.knows r.allowBeta n = true := fun n => by
    rw [mem_known, mem_dedupe]
  obtain ⟨q, hexec, hspread⟩ : ∃ q, exec (changeAll x r.action known) (start past ctx.state.enabled) =
      (.ok (), q) ∧ Spread x r.action ctx.state.enabled ([] ++ known) q :=
    spread_changeAll wf (transitive.before r.action) (obedient.obeys r.action) yes
      (closed_of_requirements closed r.action) (fun n hn => has_of_knows ((hknown n).mp hn).2)
      (spread_start nodup past)
  have houtcome : ∀ (n : Text) (o : Outcome), (n, o) ∈ q.tally.outcomes ↔
      n ∈ r.names ∧ ctx.catalog.knows r.allowBeta n = true ∧
        x.fate r.action ctx.state.enabled n = o := fun n o => by
    rw [hspread.outcomes, List.nil_append, List.mem_map, ← and_assoc, ← hknown]
    constructor
    · rintro ⟨m, hm, hmn⟩
      obtain ⟨rfl, rfl⟩ := Prod.mk.inj hmn
      exact ⟨hm, rfl⟩
    · rintro ⟨hn, rfl⟩
      exact ⟨n, hn, rfl⟩
  rw [exec_resolveRequest attached named, exec_runBatch, hexec]
  refine ⟨_, _, rfl, fun m => ?_, fun n => ?_, fun n => ?_⟩
  · rw [Resolution.attachment_ofSession]
    refine (hspread.pending m).trans (and_congr_right fun _ => ?_)
    simp [hknown, x]
  · rw [← houtcome n .success, ← Partition.outcomes_concluded _ r.action]
    exact Tally.mem_withOutcome
  · rw [← houtcome n .failure, ← Partition.outcomes_concluded _ r.action]
    exact Tally.mem_withOutcome

/-- Where services are required together with all that they require, and every call is carried out, a request
that may change what is in its way leaves the same services enabled, and reports the same ones as processed and
as failed, in whatever order it names them. -/
theorem order_does_not_matter (accepted : ofDocument document = .ok ctx.catalog)
    (transitive : ctx.catalog.Transitive) (attached : ctx.state.attached = true)
    (nodup : ctx.state.enabled.Nodup)
    (closed : ∀ n ∈ ctx.state.enabled, ∀ r ∈ ctx.catalog.requirementsOf n, r ∈ ctx.state.enabled)
    (obedient : ctx.handler.Obedient) (yes : r.assumeYes = true) (named : r.names ≠ [])
    (perm : r.names.Perm names) (past past' : List Call) :
    ∃ res calls res' calls', exec (resolveRequest ctx r) past = (.ok res, calls) ∧
      exec (resolveRequest ctx { r with names := names }) past' = (.ok res', calls') ∧
      (∀ n, n ∈ (res.attachment ctx.state).enabled ↔ n ∈ (res'.attachment ctx.state).enabled) ∧
      (∀ n, n ∈ res.report.processed ↔ n ∈ res'.report.processed) ∧
      ∀ n, n ∈ res.report.failed ↔ n ∈ res'.report.failed := by
  have wf := wellFormed_of_ofDocument accepted
  have named' : ({ r with names := names } : Request).names ≠ [] := fun hnil => by
    rw [show names = [] from hnil] at perm
    exact named perm.eq_nil
  obtain ⟨res, calls, hexec, htold⟩ :=
    told_resolveRequest wf transitive attached nodup closed obedient yes named past
  obtain ⟨res', calls', hexec', htold'⟩ :=
    told_resolveRequest (r := { r with names := names }) wf transitive attached nodup closed obedient yes
      named' past'
  refine ⟨res, calls, res', calls', hexec, hexec', fun n => ?_, fun n => ?_, fun n => ?_⟩
  · have hsame : pending r.action (res.attachment ctx.state).enabled n =
        pending r.action (res'.attachment ctx.state).enabled n := by
      rw [Bool.eq_iff_iff, htold.enabled, htold'.enabled]
      simp only [perm.mem_iff]
    exact mem_congr_of_pending hsame
  · rw [htold.processed, htold'.processed, perm.mem_iff]
  · rw [htold.failed, htold'.failed, perm.mem_iff]

/-- A catalog in which `b` requires `a`, and `c` requires both. -/
def towerDocument : Json :=
  documentOf [plainEntry "jammy" "a" [], plainEntry "jammy" "b" ["a"],
    plainEntry "jammy" "c" ["a", "b"]]

def tower : Catalog where
  services := [plainService "jammy" "a" [], plainService "jammy" "b" ["a"],
    plainService "jammy" "c" ["a", "b"]]
  distinct := by decide

theorem ofDocument_tower : ofDocument towerDocument = .ok tower := rfl

def towerContext : Context where
  catalog := tower
  handler := .system false
  series := "jammy"
  now := "2026-01-01T00:00:00.000Z"
  state := ⟨true, ["a", "c"], [], some ⟨"k", "t", "2026-01-01T00:00:00.000Z", none⟩⟩

/-- There `c` enables `a` along and stops at `b`: whether `a` is named before it or behind it, only `a` is
enabled and processed. -/
theorem order_does_not_matter_tower :
    ∃ res calls res' calls',
      exec (resolveRequest towerContext ⟨.enable, ["c", "a"], true, false⟩) [] = (.ok res, calls) ∧
      exec (resolveRequest towerContext ⟨.enable, ["a", "c"], true, false⟩) [] = (.ok res', calls') ∧
      ((∀ n, n ∈ (res.attachment towerContext.state).enabled ↔
          n ∈ (res'.attachment towerContext.state).enabled) ∧
        (∀ n, n ∈ res.report.processed ↔ n ∈ res'.report.processed) ∧
        ∀ n, n ∈ res.report.failed ↔ n ∈ res'.report.failed) ∧
      (res.attachment towerContext.state).enabled = ["a"] ∧ res.report.processed = ["a"] ∧
      res.report.failed = ["c"] := by
  have hmade : ((exec (resolveRequest towerContext ⟨.enable, ["c", "a"], true, false⟩) []).1.map fun res =>
      ((res.attachment towerContext.state).enabled, res.report.processed, res.report.failed)) =
      .ok (["a"], ["a"], ["c"]) := rfl
  obtain ⟨res, calls, res', calls', h, h', hsame⟩ := @order_does_not_matter towerDocument towerContext
    ⟨.enable, ["c", "a"], true, false⟩ ["a", "c"] ofDocument_tower (by decide) rfl (by decide) (by decide)
    Handler.obedient_system rfl (by decide) (by decide) [] []
  rw [h] at hmade
  obtain ⟨henabled, hreport⟩ := Prod.mk.inj (Except.ok.inj hmade)
  obtain ⟨hprocessed, hfailed⟩ := Prod.mk.inj hreport
  exact ⟨res, calls, res', calls', h, h', hsame, henabled, hprocessed, hfailed⟩

end Subscription
