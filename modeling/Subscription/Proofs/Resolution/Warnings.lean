import Subscription.Proofs.Executor.Dismissal
import Subscription.Proofs.Resolution.Refresh

/-!
What a refresh says of services, and what becomes of them, however the handler answers. Each lost service
that has its turn is said to have been disabled before the handler is asked to disable it. Main statement:
this is false of exactly those services that the refresh itself reports as failed and that no call takes
out; a failed service that is taken out after all goes on behalf of a later lost one that it needs.
-/

namespace Subscription

open Executor Catalog

variable {document : Json} {ctx : Context}

theorem mem_revocations {warnings : List Entry} {n : Text} : n ∈ revocations warnings ↔
    ∃ e ∈ warnings, e.code = revocationCode ∧ e.service = some n := by
  simp [revocations, and_assoc]

/-- How what a refresh says goes with what became of the services, given the calls it made. -/
structure Context.SaysOf (ctx : Context) (contract : Contract) (past made : List Call)
    (r : Resolution) : Prop where
  /-- What it says of a service is false when it reports the service as failed and no call for it was
  carried out, and never otherwise. -/
  falsely : ∀ n, n ∈ revocations r.report.warnings ∧ n ∈ (r.attachment ctx.state).enabled ↔
    n ∈ r.report.failed ∧ ¬ctx.handler.CarriesOut past made n
  reported : ∀ n, n ∈ r.report.processed ∨ n ∈ r.report.failed → n ∈ revocations r.report.warnings
  left : ∀ n, n ∈ (r.attachment ctx.state).enabled ↔
    n ∈ ctx.state.enabled ∧ ¬ctx.handler.CarriesOut past made n
  later : ∀ n ∈ r.report.failed, ctx.handler.CarriesOut past made n →
    ∃ m, [n, m].Sublist (ctx.catalog.disableOrder (ctx.lost contract)) ∧ ctx.catalog.Needs n m

/-- With a handler that answers, a refresh says of a service that it is no longer granted and leaves it
enabled if and only if it reports the service as failed and no call for it is carried out. A failed
service for which one is carried out needs a lost service that comes later in their order. -/
theorem refresh_warns_falsely_iff (accepted : ofDocument document = .ok ctx.catalog)
    (attached : ctx.state.attached = true) (nodup : ctx.state.enabled.Nodup)
    (answers : ctx.handler.Answers) (contract : Contract) (past : List Call) :
    ∃ r made, exec (resolveRefresh ctx (some contract)) past = (.ok r, past ++ made) ∧
      ctx.SaysOf contract past made r := by
  have wf := wellFormed_of_ofDocument accepted
  have known : ∀ n ∈ ctx.catalog.disableOrder (ctx.lost contract), ctx.catalog.has n := fun n hn =>
    (Context.mem_lost.mp (mem_sortBy.mp hn)).2.1
  obtain ⟨done, made, os, hexec, hdismissed⟩ :=
    dismissed_revokeAll (x := ctx.setting ctx.state true) (p := start past ctx.state.enabled) wf answers
      known nodup
  have hmem : ∀ n, n ∈ done.enabled ↔ n ∈ ctx.state.enabled ∧ ¬ctx.handler.CarriesOut past made n := by
    intro n
    rw [hdismissed.recounts.enabled]
    exact Handler.mem_replay_of_disable hdismissed.disables nodup
  have houtcomes : done.tally.outcomes = os := hdismissed.outcomes
  have hprocessed : ∀ n, n ∈ done.tally.report.processed ↔ (n, .success) ∈ os := fun n => by
    rw [← houtcomes]
    exact Tally.mem_withOutcome
  have hfailed : ∀ n, n ∈ done.tally.report.failed ↔ (n, .failure) ∈ os := fun n => by
    rw [← houtcomes]
    exact Tally.mem_withOutcome
  have hsaid : ∀ n, n ∈ revocations done.tally.warnings ↔
      n ∈ os.map (·.1) ∨ n ∈ revocations (ctx.handler.notices past made) := by
    intro n
    have hnone : n ∉ (start past ctx.state.enabled).revocations := List.not_mem_nil
    exact (hdismissed.said n).trans (or_iff_right hnone)
  have hresolve := exec_resolveRefresh attached contract past hexec
  rw [hdismissed.recounts.calls] at hresolve
  refine ⟨_, made, hresolve, fun n => ⟨?_, ?_⟩, fun n hn => ?_, hmem, fun n hn hcarried => ?_⟩
  · rintro ⟨hwarned, hthere⟩
    have hnot := ((hmem n).mp hthere).2
    rcases (hsaid n).mp hwarned with hturned | hforged
    · obtain ⟨⟨m, o⟩, ho, rfl⟩ := List.mem_map.mp hturned
      cases o with
      | success => exact absurd hthere (hdismissed.done m ho)
      | failure => exact ⟨(hfailed m).mpr ho, hnot⟩
      | skipped => exact absurd rfl (hdismissed.turned _ ho).2.2
    · obtain ⟨e, he, -, hn⟩ := mem_revocations.mp hforged
      exact absurd (Handler.carriesOut_of_mem_notices he hn) hnot
  · rintro ⟨hn, hnot⟩
    have ho := (hfailed n).mp hn
    exact ⟨(hsaid n).mpr (Or.inl (List.mem_map.mpr ⟨_, ho, rfl⟩)),
      (hmem n).mpr ⟨(hdismissed.turned _ ho).2.1, hnot⟩⟩
  · refine (hsaid n).mpr (Or.inl ?_)
    rcases hn with hn | hn
    · exact List.mem_map.mpr ⟨_, (hprocessed n).mp hn, rfl⟩
    · exact List.mem_map.mpr ⟨_, (hfailed n).mp hn, rfl⟩
  · have hgone : n ∉ done.enabled := fun hthere => ((hmem n).mp hthere).2 hcarried
    obtain ⟨m, hlater, hleads⟩ := hdismissed.later n ((hfailed n).mp hn) hgone
    exact ⟨m, hlater, leadsTo_dependentsOf.mp hleads⟩

/-- A machine with `b` enabled, which its handler does not disable at once. -/
def unwillingContext : Context where
  catalog := pair
  handler := .scripted fun action n =>
    match action, n with
    | .disable, "b" => [.failed "no" "no"]
    | _, _ => []
  series := "jammy"
  now := "2026-01-01T00:00:00.000Z"
  state := ⟨true, ["a", "b"], ["b"], some ⟨"k", "t", "2026-01-01T00:00:00.000Z", none⟩⟩

theorem answers_unwilling : unwillingContext.handler.Answers := by
  dsimp only [unwillingContext]
  apply Handler.answers_scripted
  intro action n text
  split <;> simp

/-- When `b` is no longer granted, the refresh says that it was disabled, and it stays enabled. -/
theorem refresh_warns_of_unwilling :
    ¬∀ (document : Json) (ctx : Context) (contract : Contract) (past : List Call),
      ofDocument document = .ok ctx.catalog → ctx.state.attached = true → ctx.state.enabled.Nodup →
      ctx.handler.Answers →
      ∃ r past', exec (resolveRefresh ctx (some contract)) past = (.ok r, past') ∧
        ∀ n ∈ revocations r.report.warnings, n ∉ (r.attachment ctx.state).enabled := by
  intro h
  obtain ⟨r, past', hexec, hgone⟩ := h pairDocument unwillingContext ⟨"k", ["a"]⟩ [] ofDocument_pair rfl
    (by decide) answers_unwilling
  have hresult : ((exec (resolveRefresh unwillingContext (some ⟨"k", ["a"]⟩)) []).1.map fun r =>
      (revocations r.report.warnings, (r.attachment unwillingContext.state).enabled)) =
        .ok (["b"], ["b"]) := rfl
  rw [hexec] at hresult
  obtain ⟨hsaid, hthere⟩ := Prod.mk.inj (Except.ok.inj hresult)
  exact hgone "b" (hsaid ▸ List.mem_singleton_self _) (hthere ▸ List.mem_singleton_self _)

/-- What is said of `b` goes with the calls: the one for it was turned down. -/
theorem refresh_warns_falsely_iff_unwilling :
    ∃ r made, exec (resolveRefresh unwillingContext (some ⟨"k", ["a"]⟩)) [] = (.ok r, [] ++ made) ∧
      unwillingContext.SaysOf ⟨"k", ["a"]⟩ [] made r :=
  refresh_warns_falsely_iff ofDocument_pair rfl (by decide) answers_unwilling ⟨"k", ["a"]⟩ []

end Subscription
