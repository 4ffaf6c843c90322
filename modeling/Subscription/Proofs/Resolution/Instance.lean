import Subscription.Proofs.Executor.Faults
import Subscription.Proofs.Resolution.Rounds

/-!
Attaching an instance with services that are asked for by name. Under a handler that always answers this
comes to its end, and the report can be held against the attachment it comes with. A service that is
enabled is reported as such, unless a round has failed its turn and enabled it afterwards; that happens
only to a service that a later name in the list needs.
-/

namespace Subscription

open Executor Catalog

variable {document : Json} {ctx : Context} {token : InstanceToken} {contract : Contract}
  {opts : AutoAttachOptions} {contracts : Text → Except Fault (Option Contract)}

theorem Catalog.partition_of_has {c : Catalog} {names : List Text} (h : ∀ n ∈ names, c.has n) :
    c.partition true names = ⟨names, []⟩ := by
  have hknows : ∀ n ∈ names, c.knows true n = true := by
    intro n hn
    obtain ⟨s, hs⟩ := has_iff.mp (h n hn)
    simp [knows, hs]
  have hknown : names.filter (c.knows true) = names := List.filter_eq_self.mpr hknows
  have hunknown : (names.filter fun n => !c.knows true n) = [] := by
    simpa [List.filter_eq_nil_iff] using hknows
  rw [partition, hknown, hunknown]

def AutoAttachOptions.names (opts : AutoAttachOptions) : List Text :=
  dedupe (opts.enable ++ opts.enableBeta)

namespace AutoAttach

/-! ### Arriving -/

theorem throws_resolveDetach (wf : ctx.catalog.WellFormed) :
    Throws (resolveDetach ctx) ctx.handler.Raises := by
  unfold resolveDetach
  split
  · exact throws_pure _
  · have hsession : Throws (changeAll (ctx.setting ctx.state true) .disable
        (ctx.catalog.disableOrder (ctx.state.enabled.filter ctx.catalog.has)))
        ctx.handler.Raises :=
      throws_changeAll wf fun n hn => (List.mem_filter.mp (mem_sortBy.mp hn)).2
    exact throws_bind (throws_session hsession) fun _ => throws_pure _

theorem yields_resolveDetach (attached : ctx.state.attached = true) :
    Yields (resolveDetach ctx) fun r => r.next = some .unattached := by
  unfold resolveDetach
  simp only [LifecycleAction.obstacle?, attached, if_true]
  exact yields_bind' fun _ => yields_pure rfl

theorem throws_arrive (wf : ctx.catalog.WellFormed) :
    Throws (arrive ctx (some token)) ctx.handler.Raises := by
  unfold arrive
  dsimp only
  split
  · exact throws_pure _
  · split
    · exact throws_pure _
    · refine throws_bind (throws_resolveDetach wf) fun detached => ?_
      split <;> exact throws_pure _

/-- A machine arrives with nothing on record, or stays on its instance, or is left unattached. -/
theorem yields_arrive : Yields (arrive ctx (some token)) fun
    | .inl r => (r = .blocked (.sameInstance token.instanceId) ∧ ctx.state.attached = true ∧
        ctx.state.contract.bind (·.instanceId) = some token.instanceId) ∨
      r.next = some .unattached
    | .inr arrival => arrival.token = token ∧ Handed arrival.tally [] := by
  have hhanded : Handed Tally.empty [] := ⟨rfl, rfl, rfl⟩
  unfold arrive
  dsimp only
  split
  · exact yields_pure ⟨rfl, hhanded⟩
  · next hattached =>
    have hattached : ctx.state.attached = true := by simpa using hattached
    split
    · next hsame => exact yields_pure (Or.inl ⟨rfl, hattached, hsame⟩)
    · refine yields_bind (yields_resolveDetach hattached) fun detached hdetached => ?_
      split
      · exact yields_pure (Or.inr hdetached)
      · exact yields_pure ⟨rfl, rfl, rfl, rfl⟩

/-- A machine arrives at once when it is unattached, and otherwise when it could be detached from a
subscription of another instance. -/
theorem arrived_cases {arrival : Arrival} {past past' : List Call}
    (h : exec (arrive ctx (some token)) past = (.ok (.inr arrival), past')) :
    (ctx.state.attached = false ∧ arrival = ⟨token, none, .empty⟩ ∧ past' = past) ∨
      ctx.state.attached = true ∧ ctx.state.contract.bind (·.instanceId) ≠ some token.instanceId ∧
        ∃ detached, exec (resolveDetach ctx) past = (.ok detached, past') ∧
          detached.report.verdict = .success ∧
          arrival = ⟨token, detached.next, Tally.empty.addWarning (.ofSystem .reattaching)⟩ := by
  unfold arrive at h
  cases attached : ctx.state.attached with
  | false =>
    simp only [attached, Bool.not_false, if_true] at h
    cases h
    exact Or.inl ⟨rfl, rfl, rfl⟩
  | true =>
    simp only [attached, Bool.not_true, Bool.false_eq_true, if_false] at h
    split at h
    · cases h
    · next hother =>
      obtain ⟨detached, past₁, hdetach, h⟩ := exec_bind_eq_ok.mp h
      split at h
      · cases h
      · next hsuccess =>
        cases h
        exact Or.inr ⟨rfl, hother, detached, hdetach, hsuccess, rfl⟩

/-! ### The whole operation -/

/-- With services to enable and none of them in beta without leave, what remains is the rounds. -/
theorem enrol_eq_rounds (arrival : Arrival) (named : opts.enable ++ opts.enableBeta ≠ [])
    (released : ∀ n ∈ opts.enable, ∀ s, ctx.catalog.find? n = some s → s.isBeta = false) :
    enrol ctx opts arrival (some contract) =
      rounds ctx (ctx.catalog.partition true opts.names) (limit opts.retries)
        (roundCount (limit opts.retries) - 1)
        (ctx.freshAttachment contract arrival.token.token (some arrival.token.instanceId))
        arrival.tally [] := by
  have hempty : (opts.enable.isEmpty && opts.enableBeta.isEmpty) = false := by
    simpa using named
  have hnobeta : (opts.enable.filter fun n => (ctx.catalog.find? n).any (·.isBeta)) = [] := by
    refine List.filter_eq_nil_iff.mpr fun n hn => ?_
    cases hs : ctx.catalog.find? n with
    | none => simp
    | some s => simp [released n hn s hs]
  rw [enrol]
  simp only [hempty, hnobeta]
  rfl

/-- What each round leaves when an instance is attached with services that are asked for by name. That a
run comprises these rounds is told by `comprises_of_arrived`. -/
def roundsOf (ctx : Context) (opts : AutoAttachOptions) (token : InstanceToken) (contract : Contract)
    (past : List Call) : List Progress :=
  match exec (arrive ctx (some token)) past with
  | (.ok (.inr _), past) =>
    trail ctx (ctx.catalog.partition true opts.names) (roundCount (limit opts.retries) - 1)
      (ctx.freshAttachment contract token.token (some token.instanceId)) [] past
  | _ => []

end AutoAttach

open AutoAttach in
/-- Attaching an instance with known services comes to its end. The services that are enabled then
are those that the report credits, apart from any whose turn has failed in a round that enabled it all
the same; such a service is needed by a later name. -/
theorem autoAttach_credits_iff (accepted : ofDocument document = .ok ctx.catalog)
    (answers : ctx.handler.Answers) (found : contracts token.token = .ok (some contract))
    (named : opts.enable ++ opts.enableBeta ≠ [])
    (known : ∀ n ∈ opts.enable ++ opts.enableBeta, ctx.catalog.has n)
    (released : ∀ n ∈ opts.enable, ∀ s, ctx.catalog.find? n = some s → s.isBeta = false)
    (past : List Call) :
    ∃ r past', exec (resolveAutoAttach ctx opts (some token) contracts) past = (.ok r, past') ∧
      (r.next = none → r = .blocked (.sameInstance token.instanceId) ∧ ctx.state.attached = true ∧
        ctx.state.contract.bind (·.instanceId) = some token.instanceId) ∧
      ∀ a, r.next = some a → ∀ n ∈ opts.names, n ∈ a.enabled →
        (r.report.Credits n ↔ ¬∃ done ∈ roundsOf ctx opts token contract past,
          n ∈ done.tally.withOutcome .failure ∧ n ∈ done.enabled) ∧
        (¬r.report.Credits n → ∃ m, [n, m].Sublist opts.names ∧ ctx.catalog.Needs m n) := by
  have wf := wellFormed_of_ofDocument accepted
  -- A handler that answers leaves nothing that could break off the arrival.
  have hthrows : Throws (arrive ctx (some token)) ctx.handler.Raises := throws_arrive wf
  obtain ⟨arrived, past', harrive⟩ := exec_of_throws hthrows answers.not_raises past
  have harrived := yields_arrive past arrived past' harrive
  rw [resolveAutoAttach, exec_bind, harrive]
  cases arrived with
  | inl r =>
    refine ⟨r, past', rfl, fun hnone => ?_, fun a ha n _ hn => ?_⟩
    · rcases harrived with hblocked | hnext
      · exact hblocked
      · cases hnone.symm.trans hnext
    · rcases harrived with ⟨rfl, -⟩ | hnext
      · cases ha
      · cases ha.symm.trans hnext
        cases hn
  | inr arrival =>
    obtain ⟨rfl, handed⟩ := harrived
    have hknown : ∀ n ∈ opts.names, ctx.catalog.has n := fun n hn => known n (mem_dedupe.mp hn)
    have hpartition := Catalog.partition_of_has hknown
    obtain ⟨r, past'', final, hexec, hnext, haccounts⟩ :=
      accounts_rounds (p := ctx.catalog.partition true opts.names) wf answers
        (by rwa [hpartition]) (hpartition ▸ nodup_dedupe _)
        (limit opts.retries) (roundCount (limit opts.retries) - 1)
        (ctx.freshAttachment contract arrival.token.token (some arrival.token.instanceId))
        arrival.tally [] past' List.nodup_nil handed
    have hrounds : roundsOf ctx opts arrival.token contract past = trail ctx
        (ctx.catalog.partition true opts.names) (roundCount (limit opts.retries) - 1)
        (ctx.freshAttachment contract arrival.token.token (some arrival.token.instanceId)) []
        past' := by
      rw [roundsOf, harrive]
    refine ⟨r, past'', ?_, fun hnone => ?_, fun a ha n hn hend => ?_⟩
    · simp only [exec_bind, found, exec_liftExcept, enrol_eq_rounds arrival named released]
      exact hexec
    · cases hnone.symm.trans hnext
    · obtain rfl : final = a := Option.some.inj (hnext.symm.trans ha)
      have haccount := haccounts n (by rwa [hpartition])
      rw [hrounds]
      refine ⟨haccount.credited List.not_mem_nil hend, fun hnot => ?_⟩
      rw [hpartition] at haccount
      exact haccount.later List.not_mem_nil hend hnot

/-- A machine without a subscription, whose handler does not manage to enable `b` at once. -/
def hiccupContext : Context where
  catalog := pair
  handler := .scripted fun action n =>
    if action = .enable ∧ n = "b" then [.failed "no" "no"] else []
  series := "jammy"
  now := "2026-01-01T00:00:00.000Z"
  state := .unattached

theorem answers_hiccup : hiccupContext.handler.Answers := by
  dsimp only [hiccupContext]
  apply Handler.answers_scripted
  intro action n text
  split <;> simp

/-- With `b` alone the second round mends what the first has failed. -/
theorem autoAttach_credits_iff_hiccup :
    ∃ r past', exec (resolveAutoAttach hiccupContext ⟨["b"], [], none⟩ (some ⟨"i", "t"⟩)
        fun _ => .ok (some ⟨"k", ["a", "b"]⟩)) [] = (.ok r, past') ∧
      (r.next = none → r = .blocked (.sameInstance "i") ∧ hiccupContext.state.attached = true ∧
        hiccupContext.state.contract.bind (·.instanceId) = some "i") ∧
      ∀ a, r.next = some a → ∀ n ∈ AutoAttachOptions.names ⟨["b"], [], none⟩, n ∈ a.enabled →
        (r.report.Credits n ↔
          ¬∃ done ∈ AutoAttach.roundsOf hiccupContext ⟨["b"], [], none⟩ ⟨"i", "t"⟩
              ⟨"k", ["a", "b"]⟩ [],
            n ∈ done.tally.withOutcome .failure ∧ n ∈ done.enabled) ∧
        (¬r.report.Credits n → ∃ m, [n, m].Sublist (AutoAttachOptions.names ⟨["b"], [], none⟩) ∧
          pair.Needs m n) :=
  autoAttach_credits_iff ofDocument_pair answers_hiccup rfl (by decide) (by decide)
    (by decide) []

/-- With `b` before `a`, the first round enables `b` on behalf of `a`, and the second one fails it. -/
theorem autoAttach_discredits_hiccup :
    ¬∀ (document : Json) (ctx : Context) (opts : AutoAttachOptions) (token : InstanceToken)
        (contract : Contract) (contracts : Text → Except Fault (Option Contract))
        (past : List Call),
      ofDocument document = .ok ctx.catalog → ctx.handler.Answers →
      contracts token.token = .ok (some contract) → opts.enable ++ opts.enableBeta ≠ [] →
      (∀ n ∈ opts.enable ++ opts.enableBeta, ctx.catalog.has n) →
      (∀ n ∈ opts.enable, ∀ s, ctx.catalog.find? n = some s → s.isBeta = false) →
      ∃ r past', exec (resolveAutoAttach ctx opts (some token) contracts) past = (.ok r, past') ∧
        ∀ n ∈ opts.enable ++ opts.enableBeta, n ∈ (r.attachment ctx.state).enabled →
          r.report.Credits n := by
  intro h
  obtain ⟨r, past', hexec, hcredits⟩ := h pairDocument hiccupContext ⟨["b", "a"], [], none⟩
    ⟨"i", "t"⟩ ⟨"k", ["a", "b"]⟩ (fun _ => .ok (some ⟨"k", ["a", "b"]⟩)) [] ofDocument_pair
    answers_hiccup rfl (by decide) (by decide) (by decide)
  have houtcome : (exec (resolveAutoAttach hiccupContext ⟨["b", "a"], [], none⟩ (some ⟨"i", "t"⟩)
      fun _ => .ok (some ⟨"k", ["a", "b"]⟩)) []).1.toOption.map (fun r : Resolution =>
        ((r.attachment .unattached).enabled, r.report.failed)) =
      (some (["b", "a"], ["b"]) : Option (List Text × List Text)) := by
    decide +kernel
  rw [hexec] at houtcome
  obtain ⟨henabled, hfailed⟩ := Prod.mk.inj (Option.some.inj houtcome)
  have hb : ("b" : Text) ∈ (r.attachment .unattached).enabled := by
    rw [henabled]
    decide
  have := (hcredits "b" (by decide) hb).notFailed
  rw [hfailed] at this
  exact this List.mem_cons_self

end Subscription
