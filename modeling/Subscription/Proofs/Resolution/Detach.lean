import Subscription.Proofs.Catalog.Accepted
import Subscription.Proofs.Executor.Orderly
import Subscription.Proofs.Resolution.Session

/-!
Detaching under a handler that disables whatever it is asked to. The enabled services are ordered once,
before the first of them is disabled; in that order each comes after all enabled ones that require it, so
that the checks of the executor never find anything in the way. Main statement: every enabled service of
the catalog is disabled by one call of its own, in that order, and nothing is disabled along.
-/

namespace Subscription

open Executor Catalog

variable {document : Json} {ctx : Context} {names : List Text} {made : List Call}

def Context.downward (ctx : Context) : List Text :=
  ctx.catalog.disableOrder (ctx.state.enabled.filter ctx.catalog.has)

theorem Context.mem_downward {n : Text} :
    n ∈ ctx.downward ↔ n ∈ ctx.state.enabled ∧ ctx.catalog.has n :=
  mem_sortBy.trans List.mem_filter

/-- Calls that disable some services, each once and after the enabled services that require it. -/
structure Context.TakesDown (ctx : Context) (names : List Text) (made : List Call) : Prop where
  calls : List.Forall₂
    (fun n call => ∃ s, ctx.catalog.find? n = some s ∧ call = ⟨.disable, s, ctx.series, true⟩) names made
  once : (made.map (·.service.name)).Nodup
  after : ∀ l₁ call l₂, made = l₁ ++ call :: l₂ → ∀ d ∈ ctx.state.enabled,
    call.service.name ∈ ctx.catalog.requirementsOf d → d ∈ l₁.map (·.service.name)

/-- The services in this order are due. -/
theorem Context.due_downward (wf : ctx.catalog.WellFormed) :
    Due (ctx.setting ctx.state true) .disable ctx.state.enabled ctx.downward where
  nodup := nodup_sortBy _ _
  wanted n hn := by
    obtain ⟨hmem, hhas⟩ := Context.mem_downward.mp hn
    obtain ⟨s, hs⟩ := has_iff.mp hhas
    exact ⟨s, hs, rfl, decide_eq_true hmem⟩
  inTurn l₁ n l₂ hsplit m hm hp := by
    have hordered := ordered_sortBy (wf.before_acyclic .disable)
      (ctx.state.enabled.filter ctx.catalog.has)
    refine hordered l₁ n l₂ hsplit m hm (List.mem_filter.mpr ⟨of_decide_eq_true hp, ?_⟩)
    exact wf.has_of_mem_before hm

theorem names_of_forall₂ (h : List.Forall₂
    (fun n call => ∃ s, ctx.catalog.find? n = some s ∧ call = ⟨.disable, s, ctx.series, true⟩) names
    made) : made.map (·.service.name) = names := by
  induction h with
  | nil => rfl
  | cons hcall _ ih =>
    obtain ⟨s, hs, rfl⟩ := hcall
    rw [List.map_cons, ih, name_of_find? hs]

theorem Executor.Orderly.takesDown (wf : ctx.catalog.WellFormed) {p q : Progress}
    (h : Orderly (ctx.setting ctx.state true) .disable ctx.downward made p q) :
    ctx.TakesDown ctx.downward made := by
  have due := ctx.due_downward wf
  have hnames := names_of_forall₂ h.made
  refine ⟨h.made, ?_, fun l₁ call l₂ hsplit d hd hrequires => ?_⟩
  · rw [hnames]
    exact due.nodup
  · have hplace : ctx.downward =
        l₁.map (·.service.name) ++ call.service.name :: l₂.map (·.service.name) := by
      rw [← hnames, hsplit, List.map_append, List.map_cons]
    exact due.inTurn _ _ _ hplace d (mem_dependentsOf.mpr hrequires) (decide_eq_true hd)

/-- Detaching an attached machine is one session. -/
theorem exec_resolveDetach (attached : ctx.state.attached = true) (past : List Call) {done : Progress}
    (h : exec (changeAll (ctx.setting ctx.state true) .disable ctx.downward)
      (start past ctx.state.enabled) = (.ok (), done)) :
    exec (resolveDetach ctx) past = (.ok ⟨done.tally.report, some .unattached⟩, done.calls) := by
  have hsession : exec (ctx.session ctx.state true (changeAll · .disable ctx.downward)) past =
      (.ok done, done.calls) := by
    rw [exec_session, h]
  unfold Context.downward at hsession
  unfold resolveDetach
  simp only [LifecycleAction.obstacle?, attached, if_true]
  rw [exec_bind, hsession]
  rfl

theorem Tally.report_of_successes {t : Tally} (outcomes : t.outcomes = names.map fun n => (n, .success))
    (errors : t.errors = []) :
    t.report.verdict = .success ∧ t.report.processed = names ∧ t.report.failed = [] := by
  have hsuccess : t.withOutcome .success = names := by
    simp [Tally.withOutcome, outcomes, List.filter_map, Function.comp_def]
  have hfailure : t.withOutcome .failure = [] := by
    simp [Tally.withOutcome, outcomes, List.filter_map, Function.comp_def]
  refine ⟨?_, hsuccess, hfailure⟩
  simp [Tally.report, errors, hfailure]

/-- Detaching with a handler that disables whatever it is asked to takes every enabled service of the
catalog down by one call, in the order that was fixed at the start and each after the enabled ones that
require it. It succeeds and leaves the machine unattached. Its warnings are what the handler has to say:
it never warns that a dependent is disabled along. -/
theorem detach_takes_each_down (accepted : ofDocument document = .ok ctx.catalog)
    (attached : ctx.state.attached = true) (nodup : ctx.state.enabled.Nodup)
    (obeys : ctx.handler.Obeys .disable) (past : List Call) :
    ∃ r made, exec (resolveDetach ctx) past = (.ok r, past ++ made) ∧
      r.report.verdict = .success ∧ r.report.processed = ctx.downward ∧
      r.report.failed = [] ∧ r.report.errors = [] ∧
      r.report.warnings = ctx.handler.notices past made ∧
      ctx.TakesDown ctx.downward made ∧ r.next = some .unattached := by
  have wf := wellFormed_of_ofDocument accepted
  obtain ⟨done, made, hexec, horderly⟩ :=
    orderly_changeAll (x := ctx.setting ctx.state true) (p := start past ctx.state.enabled) obeys
      (ctx.due_downward wf) nodup
  obtain ⟨hverdict, hprocessed, hfailed⟩ :=
    Tally.report_of_successes horderly.outcomes horderly.errors
  refine ⟨⟨done.tally.report, some .unattached⟩, made, ?_, hverdict, hprocessed, hfailed,
    horderly.errors, horderly.warnings, horderly.takesDown wf, rfl⟩
  rw [exec_resolveDetach attached past hexec, horderly.calls]
  rfl

/-- A machine in a container, with the pair enabled in the order in which it was asked for and a name
that is no service. -/
def pairContext : Context where
  catalog := pair
  handler := .system true
  series := "jammy"
  now := "2026-01-01T00:00:00.000Z"
  state := ⟨true, ["a", "b"], ["b", "z", "a"],
    some ⟨"k", "t", "2026-01-01T00:00:00.000Z", none⟩⟩

/-- Of the pair `a` goes first. -/
theorem detach_takes_each_down_pair :
    pairContext.downward = ["a", "b"] ∧
    ∃ r made, exec (resolveDetach pairContext) [] = (.ok r, [] ++ made) ∧
      r.report.verdict = .success ∧ r.report.processed = pairContext.downward ∧
      r.report.failed = [] ∧ r.report.errors = [] ∧
      r.report.warnings = pairContext.handler.notices [] made ∧
      pairContext.TakesDown pairContext.downward made ∧ r.next = some .unattached :=
  ⟨by decide, detach_takes_each_down ofDocument_pair rfl (by decide) (Handler.obeys_system true) []⟩

end Subscription
