import Subscription.Proofs.Catalog.Accepted
import Subscription.Proofs.Executor.Cascade
import Subscription.Proofs.Resolution.Session

/-!
Requests for a single service, with consent to change all that is in its way, under a handler that does
all it is asked. How such a request ends is known beforehand: it fails exactly when one of the services
it leads to is overtaken, and otherwise reaches all of them.
-/

namespace Subscription

open Executor Catalog

variable {document : Json} {ctx : Context} {allowBeta : Bool} {name : Text}

/-- A request for one service is the turn of that service. -/
theorem exec_resolveRequest_single (action : ServiceAction) (yes : Bool)
    (attached : ctx.state.attached = true) (known : ctx.catalog.knows allowBeta name = true)
    {s : Service} (hs : ctx.catalog.find? name = some s) (past : List Call) :
    ∃ fuel, ctx.catalog.height action name < fuel ∧
      exec (resolveRequest ctx ⟨action, [name], yes, allowBeta⟩) past =
        match recorded name (exec (changeService (ctx.setting ctx.state yes) action fuel s name)
          (start past ctx.state.enabled)) with
        | (.ok _, p) => (.ok (.ofSession ctx.state p), p.calls)
        | (.error f, p) => (.error f, p.calls) := by
  refine ⟨_, height_lt_depthBound (ctx.setting ctx.state yes) action name
    (start past ctx.state.enabled), ?_⟩
  have hdedupe : dedupe [name] = [name] := by simp [dedupe]
  rw [exec_resolveRequest_of_known attached (by simp) (by simpa using known), hdedupe,
    exec_changeAll_single, exec_change hs, if_neg (by simp [start])]
  rfl

/-- How a request for one service ends when the handler does all it is asked: with every service
changed that leads there, or with the complaint that one of them has been changed already. -/
theorem exec_cascade (action : ServiceAction) (accepted : ofDocument document = .ok ctx.catalog)
    (attached : ctx.state.attached = true) (nodup : ctx.state.enabled.Nodup)
    (closed : ∀ n ∈ ctx.state.enabled, ∀ r ∈ ctx.catalog.requirementsOf n, r ∈ ctx.state.enabled)
    (obedient : ctx.handler.Obedient) (known : ctx.catalog.knows allowBeta name = true)
    (wanted : pending action ctx.state.enabled name = true)
    (permitted : Permitted (ctx.setting ctx.state true) action ctx.state.enabled name)
    (past : List Call) :
    ∃ p, exec (resolveRequest ctx ⟨action, [name], true, allowBeta⟩) past =
        (.ok (.ofSession ctx.state p), p.calls) ∧
      (action = .disable → p.enabled = ctx.state.enabled.filter (· ∈ p.enabled)) ∧
      ((∀ t, pending action ctx.state.enabled t = true → ¬Overtaken (ctx.catalog.before action) t
          (sortBy (ctx.catalog.before action) (ctx.catalog.before action name))) ∧
        p.tally.report.verdict = .success ∧ p.tally.report.processed = [name] ∧
        p.tally.report.failed = [] ∧ p.tally.report.errors = [] ∧
        (∀ n, pending action p.enabled n = true ↔ pending action ctx.state.enabled n = true ∧
          ¬LeadsTo (ctx.catalog.before action) name n) ∨
      ∃ s, ctx.catalog.find? s.name = some s ∧ pending action ctx.state.enabled s.name = true ∧
        Overtaken (ctx.catalog.before action) s.name
          (sortBy (ctx.catalog.before action) (ctx.catalog.before action name)) ∧
        p.tally.report.verdict = .failure ∧ p.tally.report.processed = [] ∧
        p.tally.report.failed = [name] ∧
        p.tally.report.errors = [.ofService name (alreadyMessage action s.title)]) := by
  obtain ⟨s, hs⟩ := has_iff.mp (has_of_knows known)
  obtain rfl := name_of_find? hs
  obtain ⟨fuel, hfuel, hexec⟩ := exec_resolveRequest_single action true attached known hs past
  have hobeyed : Obeyed (ctx.setting ctx.state true) action s.name (start past ctx.state.enabled)
      _ _ (exec (changeService (ctx.setting ctx.state true) action fuel s s.name) _) :=
    obeyed_changeService (wellFormed_of_ofDocument accepted) (obedient.obeys action) rfl fuel s _ hs
      hfuel nodup (closed_of_requirements closed action) permitted wanted
  rw [hexec]
  generalize exec (changeService (ctx.setting ctx.state true) action fuel s s.name)
    (start past ctx.state.enabled) = result at hobeyed ⊢
  cases hobeyed with
  | @changed q steps clear effect =>
    have herrors : q.tally.errors = [] := steps.errors_eq
    have houtcomes : q.tally.outcomes = [] := steps.outcomes_eq
    refine ⟨{ q with tally := q.tally.succeed s.name }, rfl, ?_,
      Or.inl ⟨clear, ?_, ?_, ?_, herrors, effect⟩⟩
    · rintro rfl
      exact steps.enabled_eq_filter nodup
    all_goals simp [Tally.report, Tally.withOutcome, Tally.succeed, herrors, houtcomes]
  | @overtaken q t steps found late wrong =>
    have herrors : q.tally.errors = [] := steps.errors_eq
    have houtcomes : q.tally.outcomes = [] := steps.outcomes_eq
    let e : Entry := .ofService s.name (alreadyMessage action t.title)
    refine ⟨{ q with tally := q.tally.fail s.name e }, rfl, ?_, Or.inr ⟨t, found, late, wrong, ?_⟩⟩
    · rintro rfl
      exact steps.enabled_eq_filter nodup
    · simp [Tally.report, Tally.withOutcome, Tally.fail, herrors, houtcomes, e]

/-- Enabling a service whose requirements are all granted, with consent to enable them, succeeds
exactly when none of them is overtaken. -/
theorem enable_succeeds_iff (accepted : ofDocument document = .ok ctx.catalog)
    (attached : ctx.state.attached = true) (nodup : ctx.state.enabled.Nodup)
    (closed : ∀ n ∈ ctx.state.enabled, ∀ r ∈ ctx.catalog.requirementsOf n, r ∈ ctx.state.enabled)
    (obedient : ctx.handler.Obedient) (known : ctx.catalog.knows allowBeta name = true)
    (wanted : name ∉ ctx.state.enabled)
    (granted : ∀ n, ctx.catalog.Needs name n → n ∉ ctx.state.enabled →
      n ∈ ctx.state.entitlements ∧ ctx.catalog.isAvailable n ctx.series = true)
    (past : List Call) :
    ∃ r past', exec (resolveRequest ctx ⟨.enable, [name], true, allowBeta⟩) past = (.ok r, past') ∧
      (r.report.verdict = .success ↔ ∀ t, t ∉ ctx.state.enabled →
        ¬Overtaken ctx.catalog.requirementsOf t
          (ctx.catalog.enableOrder (ctx.catalog.requirementsOf name))) ∧
      (r.report.verdict = .success → r.report.processed = [name] ∧ r.report.failed = [] ∧
        r.report.errors = [] ∧
        ∀ t, ctx.catalog.Needs name t → t ∈ (r.attachment ctx.state).enabled) ∧
      (r.report.verdict = .failure → r.report.processed = [] ∧ r.report.failed = [name] ∧
        ∃ s ∈ ctx.catalog.services, s.name ∉ ctx.state.enabled ∧
          Overtaken ctx.catalog.requirementsOf s.name
            (ctx.catalog.enableOrder (ctx.catalog.requirementsOf name)) ∧
          r.report.errors = [.ofService name (.alreadyEnabled s.title)]) := by
  have permitted : Permitted (ctx.setting ctx.state true) .enable ctx.state.enabled name := by
    intro s hs hleads hpend
    exact obstacle?_enable_eq_none_iff.mpr (granted s.name hleads (by simpa [pending] using hpend))
  obtain ⟨p, hexec, -, h⟩ := exec_cascade .enable accepted attached nodup closed obedient known
    (by simpa [pending] using wanted) permitted past
  refine ⟨_, _, hexec, ?_⟩
  rw [Resolution.attachment_ofSession]
  rcases h with ⟨clear, hverdict, hprocessed, hfailed, herrors, heffect⟩ |
    ⟨s, hs, hpend, late, hverdict, hprocessed, hfailed, herrors⟩
  · have hreached : ∀ t, ctx.catalog.Needs name t → t ∈ p.enabled := by
      intro t ht
      by_contra hne
      exact ((heffect t).mp (by simpa [pending] using hne)).2 ht
    refine ⟨⟨fun _ t ht => clear t (by simpa [pending] using ht), fun _ => hverdict⟩,
      fun _ => ⟨hprocessed, hfailed, herrors, hreached⟩, fun hfailure => ?_⟩
    exact absurd (hverdict.symm.trans hfailure) (by decide)
  · have hnew : s.name ∉ ctx.state.enabled := by simpa [pending] using hpend
    refine ⟨⟨fun hsuccess => ?_, fun hclear => absurd late (hclear s.name hnew)⟩,
      fun hsuccess => ?_,
      fun _ => ⟨hprocessed, hfailed, s, (find?_eq_some_iff.mp hs).1, hnew, late, herrors⟩⟩
    · exact absurd (hsuccess.symm.trans hverdict) (by decide)
    · exact absurd (hsuccess.symm.trans hverdict) (by decide)

/-- A catalog in which `a` requires `b` and `c`, and `b` requires `c` over `x`. -/
def detourDocument : Json :=
  documentOf [plainEntry "jammy" "a" ["b", "c"], plainEntry "jammy" "b" ["x"],
    plainEntry "jammy" "c" [], plainEntry "jammy" "x" ["c"]]

def detour : Catalog where
  services := [plainService "jammy" "a" ["b", "c"], plainService "jammy" "b" ["x"],
    plainService "jammy" "c" [], plainService "jammy" "x" ["c"]]
  distinct := by decide

theorem ofDocument_detour : ofDocument detourDocument = .ok detour := rfl

def detourContext : Context where
  catalog := detour
  handler := .system false
  series := "jammy"
  now := "2026-01-01T00:00:00.000Z"
  state := ⟨true, ["a", "b", "c", "x"], [], some ⟨"k", "t", "2026-01-01T00:00:00.000Z", none⟩⟩

theorem granted_detour {n m : Text} (hn : detour.has n) (h : detour.Needs n m) :
    m ∈ detourContext.state.entitlements ∧ detour.isAvailable m "jammy" = true := by
  have hm := (wellFormed_of_ofDocument ofDocument_detour).has_of_leadsTo .enable h hn
  have hall : ∀ m ∈ detour.services.map (·.name),
      m ∈ detourContext.state.entitlements ∧ detour.isAvailable m "jammy" = true := by decide
  exact hall m (mem_names_of_has hm)

/-- Here `b` is enabled after `x` and `c`, and nothing is overtaken. -/
theorem enable_succeeds_iff_detour :
    ∃ r past', exec (resolveRequest detourContext ⟨.enable, ["b"], true, false⟩) [] =
        (.ok r, past') ∧
      (r.report.verdict = .success ↔ ∀ t, t ∉ detourContext.state.enabled →
        ¬Overtaken detour.requirementsOf t (detour.enableOrder (detour.requirementsOf "b"))) ∧
      (r.report.verdict = .success → r.report.processed = ["b"] ∧ r.report.failed = [] ∧
        r.report.errors = [] ∧
        ∀ t, detour.Needs "b" t → t ∈ (r.attachment detourContext.state).enabled) ∧
      (r.report.verdict = .failure → r.report.processed = [] ∧ r.report.failed = ["b"] ∧
        ∃ s ∈ detour.services, s.name ∉ detourContext.state.enabled ∧
          Overtaken detour.requirementsOf s.name (detour.enableOrder (detour.requirementsOf "b")) ∧
          r.report.errors = [.ofService "b" (.alreadyEnabled s.title)]) :=
  enable_succeeds_iff ofDocument_detour rfl (by decide) (by decide)
    Handler.obedient_system (by decide) (by decide) (fun _ h _ => granted_detour (by decide) h) []

/-- Enabling `a` comes to `c` after `b` has brought it along, and fails. -/
theorem enable_fails_on_detour :
    ¬∀ (document : Json) (ctx : Context) (allowBeta : Bool) (name : Text) (past : List Call),
      ofDocument document = .ok ctx.catalog → ctx.state.attached = true →
      ctx.state.enabled.Nodup →
      (∀ n ∈ ctx.state.enabled, ∀ r ∈ ctx.catalog.requirementsOf n, r ∈ ctx.state.enabled) →
      ctx.handler.Obedient → ctx.catalog.knows allowBeta name = true → name ∉ ctx.state.enabled →
      (∀ n, ctx.catalog.Needs name n → n ∉ ctx.state.enabled →
        n ∈ ctx.state.entitlements ∧ ctx.catalog.isAvailable n ctx.series = true) →
      ∃ r past', exec (resolveRequest ctx ⟨.enable, [name], true, allowBeta⟩) past =
          (.ok r, past') ∧
        r.report.verdict = .success ∧ r.report.processed = [name] ∧ r.report.errors = [] ∧
        ∀ t, ctx.catalog.Needs name t → t ∈ (r.attachment ctx.state).enabled := by
  intro h
  obtain ⟨r, past', hexec, hverdict, -⟩ := h detourDocument detourContext false "a" []
    ofDocument_detour rfl (by decide) (by decide) Handler.obedient_system (by decide) (by decide)
    (fun _ h _ => granted_detour (by decide) h)
  have hfails : ((exec (resolveRequest detourContext ⟨.enable, ["a"], true, false⟩) []).1.map
      (·.report.verdict)) = .ok .failure := rfl
  rw [hexec] at hfails
  exact absurd (hverdict.symm.trans (Except.ok.inj hfails)) (by decide)

open Classical in
/-- Disabling an enabled service, with consent to disable what requires it, succeeds exactly when no
enabled service is overtaken, and then takes away what needs the service and nothing else. -/
theorem disable_succeeds_iff (accepted : ofDocument document = .ok ctx.catalog)
    (attached : ctx.state.attached = true) (nodup : ctx.state.enabled.Nodup)
    (closed : ∀ n ∈ ctx.state.enabled, ∀ r ∈ ctx.catalog.requirementsOf n, r ∈ ctx.state.enabled)
    (obedient : ctx.handler.Obedient) (known : ctx.catalog.knows allowBeta name = true)
    (wanted : name ∈ ctx.state.enabled) (past : List Call) :
    ∃ r past', exec (resolveRequest ctx ⟨.disable, [name], true, allowBeta⟩) past =
        (.ok r, past') ∧
      (r.report.verdict = .success ↔ ∀ t ∈ ctx.state.enabled,
        ¬Overtaken ctx.catalog.dependentsOf t
          (ctx.catalog.disableOrder (ctx.catalog.dependentsOf name))) ∧
      (r.report.verdict = .success → r.report.processed = [name] ∧ r.report.failed = [] ∧
        r.report.errors = [] ∧ (r.attachment ctx.state).enabled =
          ctx.state.enabled.filter fun n => ¬ctx.catalog.Needs n name) ∧
      (r.report.verdict = .failure → r.report.processed = [] ∧ r.report.failed = [name] ∧
        ∃ s ∈ ctx.catalog.services, s.name ∈ ctx.state.enabled ∧
          Overtaken ctx.catalog.dependentsOf s.name
            (ctx.catalog.disableOrder (ctx.catalog.dependentsOf name)) ∧
          r.report.errors = [.ofService name (.alreadyDisabled s.title)]) := by
  obtain ⟨p, hexec, hfilter, h⟩ := exec_cascade .disable accepted attached nodup closed
    obedient known (by simpa [pending] using wanted) (fun _ _ _ _ => rfl) past
  refine ⟨_, _, hexec, ?_⟩
  rw [Resolution.attachment_ofSession]
  rcases h with ⟨clear, hverdict, hprocessed, hfailed, herrors, heffect⟩ |
    ⟨s, hs, hpend, late, hverdict, hprocessed, hfailed, herrors⟩
  · have hkept : ∀ n, n ∈ p.enabled ↔ n ∈ ctx.state.enabled ∧ ¬ctx.catalog.Needs n name := by
      intro n
      have heffect := heffect n
      simp only [pending, decide_eq_true_eq] at heffect
      rw [← leadsTo_dependentsOf]
      exact heffect
    have henabled : p.enabled = ctx.state.enabled.filter fun n => ¬ctx.catalog.Needs n name := by
      rw [hfilter rfl]
      exact List.filter_congr fun n hn => by simp [hkept n, hn]
    refine ⟨⟨fun _ t ht => clear t (by simpa [pending] using ht), fun _ => hverdict⟩,
      fun _ => ⟨hprocessed, hfailed, herrors, henabled⟩, fun hfailure => ?_⟩
    exact absurd (hverdict.symm.trans hfailure) (by decide)
  · have hthere : s.name ∈ ctx.state.enabled := by simpa [pending] using hpend
    refine ⟨⟨fun hsuccess => ?_, fun hclear => absurd late (hclear s.name hthere)⟩,
      fun hsuccess => ?_,
      fun _ => ⟨hprocessed, hfailed, s, (find?_eq_some_iff.mp hs).1, hthere, late, herrors⟩⟩
    · exact absurd (hsuccess.symm.trans hverdict) (by decide)
    · exact absurd (hsuccess.symm.trans hverdict) (by decide)

/-- A catalog in which `p` and `q` require `a`, and `q` also requires `p` over `x`. -/
def shortcutDocument : Json :=
  documentOf [plainEntry "jammy" "a" [], plainEntry "jammy" "p" ["a"],
    plainEntry "jammy" "q" ["a", "x"], plainEntry "jammy" "x" ["p"]]

def shortcut : Catalog where
  services := [plainService "jammy" "a" [], plainService "jammy" "p" ["a"],
    plainService "jammy" "q" ["a", "x"], plainService "jammy" "x" ["p"]]
  distinct := by decide

theorem ofDocument_shortcut : ofDocument shortcutDocument = .ok shortcut := rfl

def shortcutContext : Context where
  catalog := shortcut
  handler := .system false
  series := "jammy"
  now := "2026-01-01T00:00:00.000Z"
  state := ⟨true, ["a", "p", "q", "x"], ["a", "p", "x", "q"],
    some ⟨"k", "t", "2026-01-01T00:00:00.000Z", none⟩⟩

open Classical in
/-- Here `q` is disabled with `x`, and nothing is overtaken. -/
theorem disable_succeeds_iff_shortcut :
    ∃ r past', exec (resolveRequest shortcutContext ⟨.disable, ["x"], true, false⟩) [] =
        (.ok r, past') ∧
      (r.report.verdict = .success ↔ ∀ t ∈ shortcutContext.state.enabled,
        ¬Overtaken shortcut.dependentsOf t (shortcut.disableOrder (shortcut.dependentsOf "x"))) ∧
      (r.report.verdict = .success → r.report.processed = ["x"] ∧ r.report.failed = [] ∧
        r.report.errors = [] ∧ (r.attachment shortcutContext.state).enabled =
          shortcutContext.state.enabled.filter fun n => ¬shortcut.Needs n "x") ∧
      (r.report.verdict = .failure → r.report.processed = [] ∧ r.report.failed = ["x"] ∧
        ∃ s ∈ shortcut.services, s.name ∈ shortcutContext.state.enabled ∧
          Overtaken shortcut.dependentsOf s.name
            (shortcut.disableOrder (shortcut.dependentsOf "x")) ∧
          r.report.errors = [.ofService "x" (.alreadyDisabled s.title)]) :=
  disable_succeeds_iff ofDocument_shortcut rfl (by decide) (by decide)
    Handler.obedient_system (by decide) (by decide) []

open Classical in
/-- Disabling `a` comes to `q` after `p` has taken it along, and fails. -/
theorem disable_fails_on_shortcut :
    ¬∀ (document : Json) (ctx : Context) (allowBeta : Bool) (name : Text) (past : List Call),
      ofDocument document = .ok ctx.catalog → ctx.state.attached = true →
      ctx.state.enabled.Nodup →
      (∀ n ∈ ctx.state.enabled, ∀ r ∈ ctx.catalog.requirementsOf n, r ∈ ctx.state.enabled) →
      ctx.handler.Obedient → ctx.catalog.knows allowBeta name = true → name ∈ ctx.state.enabled →
      ∃ r past', exec (resolveRequest ctx ⟨.disable, [name], true, allowBeta⟩) past =
          (.ok r, past') ∧
        r.report.verdict = .success ∧ r.report.processed = [name] ∧ r.report.errors = [] ∧
        (r.attachment ctx.state).enabled =
          ctx.state.enabled.filter fun n => ¬ctx.catalog.Needs n name := by
  intro h
  obtain ⟨r, past', hexec, hverdict, -⟩ := h shortcutDocument shortcutContext false "a" []
    ofDocument_shortcut rfl (by decide) (by decide) Handler.obedient_system (by decide) (by decide)
  have hfails : ((exec (resolveRequest shortcutContext ⟨.disable, ["a"], true, false⟩) []).1.map
      (·.report.verdict)) = .ok .failure := rfl
  rw [hexec] at hfails
  exact absurd (hverdict.symm.trans (Except.ok.inj hfails)) (by decide)

end Subscription
