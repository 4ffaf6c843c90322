import Subscription.Proofs.Catalog.Accepted
import Subscription.Proofs.Executor.Calls
import Subscription.Proofs.Resolution.Instance
import Subscription.Proofs.Resolution.Request
import Subscription.Proofs.Resolution.Resolver

/-!
Every call to the handler is safe, whichever resolution makes it. A resolution is a series of sessions;
`CallsSafely` carries the list that is told from the calls from one session to the next. It is the list
of the executor except where a machine that has been detached goes on to be attached again: what is left
of the old list then is not in the catalog, and no call concerns it.
-/

namespace Subscription

open Executor

variable {α β : Type} {document : Json} {ctx : Context} {granted view : List Text}

/-- The services that are taken to be enabled. On an unattached machine there are none: whatever is
stored for it is dropped when it is attached. -/
def Attachment.inForce (a : Attachment) : List Text :=
  if a.attached then a.enabled else []

theorem Attachment.tracks_inForce {a : Attachment} {c : Catalog} (attached : a.attached = true)
    (nodup : a.enabled.Nodup) : c.Tracks a.inForce a.enabled := by
  rw [inForce, if_pos attached]
  exact Catalog.tracks_self nodup

/-- Whatever was called before, a computation makes allowed calls only, and what it returns has a
property together with the services that are enabled then. -/
def CallsSafely (ctx : Context) (granted view : List Text) (r : Resolving α)
    (Q : α → List Text → Prop) : Prop :=
  ∀ past, ∃ new, (exec r past).2 = past ++ new ∧
    ctx.catalog.SafeCalls ctx.handler ctx.series granted past view new ∧
    ∀ a, (exec r past).1 = .ok a → Q a (ctx.handler.replay past view new)

namespace CallsSafely

variable {r : Resolving α} {Q Q' : α → List Text → Prop}

theorem pure {a : α} (h : Q a view) : CallsSafely ctx granted view (Pure.pure a) Q :=
  fun past => ⟨[], by simp, trivial, fun b hb => by
    cases hb
    exact h⟩

theorem lift {e : Except Fault α} (h : ∀ a, e = .ok a → Q a view) :
    CallsSafely ctx granted view (liftM e : Resolving α) Q :=
  fun past => ⟨[], by simp, trivial, fun a ha => h a (by simpa using ha)⟩

theorem mono (h : CallsSafely ctx granted view r Q) (hQ : ∀ a view', Q a view' → Q' a view') :
    CallsSafely ctx granted view r Q' := by
  intro past
  obtain ⟨new, hcalls, hsafe, hresult⟩ := h past
  exact ⟨new, hcalls, hsafe, fun a ha => hQ a _ (hresult a ha)⟩

theorem bind {f : α → Resolving β} {R : β → List Text → Prop} (h : CallsSafely ctx granted view r Q)
    (hf : ∀ a view', Q a view' → CallsSafely ctx granted view' (f a) R) :
    CallsSafely ctx granted view (r >>= f) R := by
  intro past
  obtain ⟨new, hcalls, hsafe, hresult⟩ := h past
  rw [exec_bind]
  rcases hr : exec r past with ⟨e | a, past'⟩
  · rw [hr] at hcalls
    exact ⟨new, hcalls, hsafe, fun b hb => by cases hb⟩
  · rw [hr] at hcalls hresult
    obtain ⟨more, hcalls', hsafe', hresult'⟩ := hf a _ (hresult a rfl) past'
    rw [show past' = past ++ new from hcalls] at hcalls' hsafe' hresult' ⊢
    refine ⟨new ++ more, ?_, Catalog.safeCalls_append.mpr ⟨hsafe, hsafe'⟩, ?_⟩
    · rw [← List.append_assoc]
      exact hcalls'
    · rw [Handler.replay_append]
      exact hresult'

/-- A session on an attachment, told from the calls by a list that goes along with the attachment. -/
theorem session (wf : ctx.catalog.WellFormed) {a : Attachment} {yes : Bool}
    {body : Setting → Run Unit} {action : ServiceAction}
    (hmoves : ∀ past, Moves (ctx.setting a yes) action (start past a.enabled)
      (exec (body (ctx.setting a yes)) (start past a.enabled)).2)
    (hgranted : action = .enable → a.entitlements = granted) (ha : a.enabled.Nodup)
    (hview : ctx.catalog.Tracks view a.enabled) :
    CallsSafely ctx granted view (ctx.session a yes body) fun done view' =>
      ctx.catalog.Tracks view' done.enabled ∧ done.enabled.Nodup ∧
        ∃ past, exec (body (ctx.setting a yes)) (start past a.enabled) = (.ok (), done) := by
  intro past
  obtain ⟨new, hcalls, hsafe, htracks⟩ := (hmoves past).safeCalls wf hgranted ha hview
  have hnodup := (hmoves past).nodup ha
  refine ⟨new, calls_session.trans hcalls, hsafe, fun done hdone => ?_⟩
  obtain ⟨hbody, -⟩ := exec_session_eq_ok.mp (Prod.ext hdone rfl)
  rw [hbody] at hnodup htracks
  exact ⟨htracks, hnodup, past, hbody⟩

theorem session_fresh (wf : ctx.catalog.WellFormed) (contract : Contract) (token : Text)
    (instanceId : Option Text) {body : Setting → Run Unit}
    (hmoves : ∀ x : Setting, x.catalog.WellFormed → ∀ p : Progress, p.enabled.Nodup →
      Moves x .enable p (exec (body x) p).2)
    (hview : ctx.catalog.Tracks view []) :
    CallsSafely ctx contract.entitlements view
      (ctx.session (ctx.freshAttachment contract token instanceId) true body) fun _ _ => True := by
  have hsession : CallsSafely ctx contract.entitlements view
      (ctx.session (ctx.freshAttachment contract token instanceId) true body) _ :=
    .session wf (fun past => hmoves _ wf _ List.nodup_nil) (fun _ => rfl) List.nodup_nil hview
  exact hsession.mono fun _ _ _ => trivial

end CallsSafely

/-! ### The resolutions -/

theorem callsSafely_resolveRequest (wf : ctx.catalog.WellFormed) (nodup : ctx.state.enabled.Nodup)
    (r : Request) :
    CallsSafely ctx ctx.state.entitlements ctx.state.inForce (resolveRequest ctx r)
      fun _ _ => True := by
  refine (CallsSafely.lift (Q := fun _ view => view = ctx.state.inForce) fun _ _ => rfl).bind
    fun _ view hview => ?_
  subst hview
  dsimp only
  split
  · exact .pure trivial
  · next hobstacle =>
    have hview := Attachment.tracks_inForce (c := ctx.catalog)
      (Partition.attached_of_obstacle? hobstacle) nodup
    refine (CallsSafely.session wf (fun past => moves_runBatch wf (fun n hn => ?_) nodup)
      (fun _ => rfl) nodup hview).bind fun _ _ _ => .pure trivial
    exact Catalog.has_of_knows (Catalog.mem_known.mp hn).2

theorem callsSafely_resolveAttach (wf : ctx.catalog.WellFormed) (token : Text) (autoEnable : Bool)
    (contract : Option Contract) (hview : ctx.catalog.Tracks view []) :
    CallsSafely ctx (contract.elim [] (·.entitlements)) view
      (resolveAttach ctx token autoEnable contract) fun _ _ => True := by
  unfold resolveAttach
  split
  · exact .pure trivial
  · exact .pure trivial
  · next contract _ =>
    have hmoves : ∀ x : Setting, x.catalog.WellFormed → ∀ p : Progress, p.enabled.Nodup →
        Moves x .enable p (exec (if autoEnable then enableDefaults x else pure ()) p).2 := by
      intro x wf p hp
      split
      · exact moves_enableDefaults wf hp
      · exact .refl
    exact (CallsSafely.session_fresh wf contract token none hmoves hview).bind
      fun _ _ _ => .pure trivial

/-- After a detach that succeeds, no service of the catalog is enabled. -/
theorem callsSafely_resolveDetach (wf : ctx.catalog.WellFormed) (nodup : ctx.state.enabled.Nodup)
    (granted : List Text) :
    CallsSafely ctx granted ctx.state.inForce (resolveDetach ctx) fun r view =>
      r.report.verdict = .success → ctx.catalog.Tracks view [] := by
  unfold resolveDetach
  split
  · exact .pure fun hsuccess => by cases hsuccess
  · next hobstacle =>
    have attached : ctx.state.attached = true := by
      by_contra hne
      simp [LifecycleAction.obstacle?, hne] at hobstacle
    set names := ctx.catalog.disableOrder (ctx.state.enabled.filter ctx.catalog.has) with hnames
    have hmem : ∀ n, n ∈ names ↔ n ∈ ctx.state.enabled ∧ ctx.catalog.has n := fun n => by
      rw [hnames, Catalog.disableOrder, Catalog.mem_sortBy, List.mem_filter]
    have hknown : ∀ n ∈ names, ctx.catalog.has n := fun n hn => ((hmem n).mp hn).2
    refine (CallsSafely.session wf (fun past => moves_changeAll wf hknown nodup) (by simp) nodup
      (Attachment.tracks_inForce attached nodup)).bind fun done view hdone =>
        .pure fun hsuccess => ?_
    obtain ⟨htracks, -, past, hexec⟩ := hdone
    have hturns : Turns (ctx.setting ctx.state true) .disable [] names
        (start past ctx.state.enabled) done := turns_of_changeAll wf hknown nodup hexec
    refine ⟨htracks.nodup, fun n hn => ⟨fun hview => ?_, fun h => by cases h⟩⟩
    -- A name that is still there was there from the start, so it has had its turn and failed it.
    have hthere : n ∈ done.enabled := (htracks.same n hn).mp hview
    have hstart : n ∈ ctx.state.enabled := by
      by_contra hne
      have hstays := hturns.stays (n := n) nodup (by simp [pending, start, hne])
      simp [pending, hthere] at hstays
    rcases hturns.failure_or_done nodup ((hmem n).mpr ⟨hstart, hn⟩) List.not_mem_nil with
      hfailed | hgone
    · have hfailed := Tally.mem_withOutcome.mpr hfailed
      rw [Tally.withOutcome_failure_of_success hsuccess] at hfailed
      cases hfailed
    · simp [pending, hthere] at hgone

theorem callsSafely_resolveRefresh (wf : ctx.catalog.WellFormed) (nodup : ctx.state.enabled.Nodup)
    (contract : Option Contract) (granted : List Text) :
    CallsSafely ctx granted ctx.state.inForce (resolveRefresh ctx contract) fun _ _ => True := by
  unfold resolveRefresh
  split
  · exact .pure trivial
  · exact .pure trivial
  · next hobstacle =>
    have attached : ctx.state.attached = true := by
      by_contra hne
      simp [LifecycleAction.obstacle?, hne] at hobstacle
    refine (CallsSafely.session wf (fun past => moves_revokeAll wf (fun n hn => ?_) nodup) (by simp)
      nodup (Attachment.tracks_inForce attached nodup)).bind fun _ _ _ => .pure trivial
    have hlost := (List.mem_filter.mp (Catalog.mem_sortBy.mp hn)).2
    rw [Bool.and_eq_true] at hlost
    exact hlost.1

namespace AutoAttach

/-- A machine arrives with no service of the catalog enabled. -/
theorem callsSafely_arrive (wf : ctx.catalog.WellFormed) (nodup : ctx.state.enabled.Nodup)
    (granted : List Text) (token : Option InstanceToken) :
    CallsSafely ctx granted ctx.state.inForce (arrive ctx token) fun
      | .inl _, _ => True
      | .inr arrival, view => token = some arrival.token ∧ ctx.catalog.Tracks view [] := by
  cases token with
  | none => exact .pure trivial
  | some token =>
    unfold arrive
    dsimp only
    split
    · next hunattached =>
      have hnone : ctx.state.inForce = [] := if_neg (by simpa using hunattached)
      rw [hnone]
      exact .pure ⟨rfl, Catalog.tracks_self List.nodup_nil⟩
    · split
      · exact .pure trivial
      · refine (callsSafely_resolveDetach wf nodup granted).bind fun detached view hview => ?_
        split
        · exact .pure trivial
        · next hsuccess => exact .pure ⟨rfl, hview hsuccess⟩

theorem callsSafely_rounds (wf : ctx.catalog.WellFormed) {p : Partition}
    (known : ∀ n ∈ p.known, ctx.catalog.has n) (limit : Number) (left : Nat) :
    ∀ (a : Attachment) (tally : Tally) (settled view : List Text), a.enabled.Nodup →
      a.entitlements = granted → ctx.catalog.Tracks view a.enabled →
      CallsSafely ctx granted view (rounds ctx p limit left a tally settled) fun _ _ => True := by
  have hround : ∀ (a : Attachment) (settled view : List Text), a.enabled.Nodup →
      a.entitlements = granted → ctx.catalog.Tracks view a.enabled →
      CallsSafely ctx granted view (ctx.session a true (enableUnsettled settled · p.known))
        fun done view' => ctx.catalog.Tracks view' done.enabled ∧ done.enabled.Nodup ∧ _ :=
    fun a settled view ha hgranted hview =>
      .session wf (fun past => moves_enableUnsettled wf known ha) (fun _ => hgranted) ha hview
  induction left with
  | zero =>
    intro a tally settled view ha hgranted hview
    exact (hround a settled view ha hgranted hview).bind fun _ _ _ => .pure trivial
  | succ left ih =>
    intro a tally settled view ha hgranted hview
    rw [rounds]
    refine (hround a settled view ha hgranted hview).bind fun done view' hdone => ?_
    obtain ⟨htracks, hnodup, -⟩ := hdone
    split
    · exact ih _ _ _ _ hnodup hgranted htracks
    · exact .pure trivial

theorem callsSafely_enrol (wf : ctx.catalog.WellFormed) (opts : AutoAttachOptions) (arrival : Arrival)
    (contract : Option Contract) (hview : ctx.catalog.Tracks view []) :
    CallsSafely ctx (contract.elim [] (·.entitlements)) view (enrol ctx opts arrival contract)
      fun _ _ => True := by
  cases contract with
  | none => exact .pure trivial
  | some contract =>
    unfold enrol
    dsimp only
    split
    · exact (CallsSafely.session_fresh wf contract _ _ (fun _ wf _ hp => moves_enableDefaults wf hp)
        hview).bind fun _ _ _ => .pure trivial
    · split
      · refine callsSafely_rounds wf (fun n hn => ?_) _ _ _ _ _ _ List.nodup_nil rfl hview
        exact Catalog.has_of_knows (Catalog.mem_known.mp hn).2
      · exact .pure trivial

end AutoAttach

/-! ### All of them -/

namespace Resolver

/-- The services that are granted by the contract in force: the one looked up for a machine that is to
be attached, otherwise the one it has. -/
def grants (a : Attachment) : Resolver → List Text
  | .request _ | .detach | .refresh _ => a.entitlements
  | .attach _ _ contract => contract.elim [] (·.entitlements)
  | .autoAttach _ token contracts =>
    match token.map fun t => contracts t.token with
    | some (.ok (some contract)) => contract.entitlements
    | _ => []

theorem callsSafely_run (wf : ctx.catalog.WellFormed) (nodup : ctx.state.enabled.Nodup)
    (t : Resolver) :
    CallsSafely ctx (t.grants ctx.state) ctx.state.inForce (t.run ctx) fun _ _ => True := by
  cases t with
  | request r => exact callsSafely_resolveRequest wf nodup r
  | detach => exact (callsSafely_resolveDetach wf nodup _).mono fun _ _ _ => trivial
  | refresh contract => exact callsSafely_resolveRefresh wf nodup contract _
  | attach token autoEnable contract =>
    cases hattached : ctx.state.attached with
    | true =>
      have hblocked : resolveAttach ctx token autoEnable contract =
          pure (.blocked (.alreadyAttached ctx.state.contractName)) := by
        simp [resolveAttach, LifecycleAction.obstacle?, hattached]
      rw [run, hblocked]
      exact .pure trivial
    | false =>
      have hnone : ctx.state.inForce = [] := if_neg (by simp [hattached])
      rw [hnone]
      exact callsSafely_resolveAttach wf token autoEnable contract
        (Catalog.tracks_self List.nodup_nil)
  | autoAttach opts token contracts =>
    refine (AutoAttach.callsSafely_arrive wf nodup _ token).bind fun arrived view harrived => ?_
    cases arrived with
    | inl r => exact .pure trivial
    | inr arrival =>
      obtain ⟨rfl, hview⟩ := harrived
      have hlook : CallsSafely ctx (grants ctx.state (.autoAttach opts (some arrival.token) contracts))
          view (liftM (contracts arrival.token.token) : Resolving _) fun contract view' =>
            view' = view ∧ contracts arrival.token.token = .ok contract :=
        .lift fun contract hcontract => ⟨rfl, hcontract⟩
      refine hlook.bind fun contract view' hfound => ?_
      obtain ⟨rfl, hcontract⟩ := hfound
      have hgrants : grants ctx.state (.autoAttach opts (some arrival.token) contracts) =
          contract.elim [] (·.entitlements) := by
        cases contract <;> simp [grants, hcontract]
      rw [hgrants]
      exact AutoAttach.callsSafely_enrol wf opts arrival contract hview

end Resolver

/-- The services that a request may call the handler for: those of the known names in it, and with
consent all that these lead to. -/
def Request.Reaches (c : Catalog) (r : Request) (n : Text) : Prop :=
  ∃ m ∈ r.names, c.knows r.allowBeta m ∧
    if r.assumeYes then Catalog.LeadsTo (c.before r.action) m n else n = m

theorem called_resolveRequest (wf : ctx.catalog.WellFormed) (nodup : ctx.state.enabled.Nodup)
    (r : Request) (past : List Call) :
    ∃ new, (exec (resolveRequest ctx r) past).2 = past ++ new ∧
      ∀ call ∈ new, call.action = r.action ∧ r.Reaches ctx.catalog call.service.name := by
  have hnothing : ∃ new, past = past ++ new ∧ ∀ call ∈ new,
      call.action = r.action ∧ r.Reaches ctx.catalog call.service.name := ⟨[], by simp, by simp⟩
  simp only [resolveRequest, exec_bind, exec_liftExcept]
  cases r.check with
  | error e => exact hnothing
  | ok u =>
    dsimp only
    split
    · exact hnothing
    · set p := ctx.catalog.partition r.allowBeta (dedupe r.names) with hp
      have hknown : ∀ n ∈ p.known, n ∈ r.names ∧ ctx.catalog.knows r.allowBeta n := fun n hn => by
        rw [hp, Catalog.mem_known] at hn
        exact ⟨mem_dedupe.mp hn.1, hn.2⟩
      obtain ⟨new, hcalls, hnew⟩ : Called r.action
          (fun n => ∃ m ∈ p.known, (ctx.setting ctx.state r.assumeYes).Reaches r.action m n)
          (start past ctx.state.enabled) _ :=
        called_runBatch wf (fun n hn => Catalog.has_of_knows (hknown n hn).2) nodup
      refine ⟨new, ?_, fun call hcall => ?_⟩
      · rw [← show _ = past ++ new from hcalls, exec_bind, exec_session]
        rcases exec (runBatch (ctx.setting ctx.state r.assumeYes) r.action p)
          (start past ctx.state.enabled) with ⟨_ | _, q⟩ <;> rfl
      · obtain ⟨haction, m, hm, hreach⟩ := hnew call hcall
        exact ⟨haction, m, (hknown m hm).1, (hknown m hm).2, hreach⟩

namespace Resolver

/-- Every call that a resolution makes is safe, and a request calls only for what it reaches. The
enabled services at each moment are those in force at the start, changed by the calls since then that
the handler has carried out. -/
theorem safeCalls_run (accepted : Catalog.ofDocument document = .ok ctx.catalog)
    (nodup : ctx.state.enabled.Nodup) (t : Resolver) (past : List Call) :
    ∃ new, (exec (t.run ctx) past).2 = past ++ new ∧
      ctx.catalog.SafeCalls ctx.handler ctx.series (t.grants ctx.state) past ctx.state.inForce new ∧
      ∀ r, t = .request r → ∀ call ∈ new,
        call.action = r.action ∧ r.Reaches ctx.catalog call.service.name := by
  have wf := Catalog.wellFormed_of_ofDocument accepted
  obtain ⟨new, hcalls, hsafe, -⟩ := callsSafely_run wf nodup t past
  refine ⟨new, hcalls, hsafe, ?_⟩
  rintro r rfl
  obtain ⟨new', hcalls', hreaches⟩ := called_resolveRequest wf nodup r past
  rwa [List.append_cancel_left (hcalls.symm.trans hcalls')]

/-- Enabling `a` on a machine on which nothing is enabled calls for `c`, `x` and `b` and then stops. -/
theorem safeCalls_run_detour :
    ∃ new, (exec (run detourContext (.request ⟨.enable, ["a"], true, false⟩)) []).2 = [] ++ new ∧
      detour.SafeCalls (.system false) "jammy" ["a", "b", "c", "x"] [] [] new ∧
      ∀ r, Resolver.request ⟨.enable, ["a"], true, false⟩ = .request r → ∀ call ∈ new,
        call.action = r.action ∧ r.Reaches detour call.service.name :=
  safeCalls_run ofDocument_detour List.nodup_nil (.request ⟨.enable, ["a"], true, false⟩) []

/-- An unattached machine for which `b` is stored as enabled all the same. -/
def staleContext : Context :=
  { hiccupContext with handler := .system false, state := { Attachment.unattached with enabled := ["b"] } }

/-- When the stale machine is attached, the handler is called to enable `b` again. -/
theorem stale_list_is_dropped :
    ¬∀ (document : Json) (ctx : Context) (t : Resolver) (past : List Call),
      Catalog.ofDocument document = .ok ctx.catalog → ctx.state.enabled.Nodup →
      ∃ new, (exec (t.run ctx) past).2 = past ++ new ∧
        ctx.catalog.SafeCalls ctx.handler ctx.series (t.grants ctx.state) past ctx.state.enabled
          new := by
  intro h
  obtain ⟨new, hcalls, hsafe⟩ := h Catalog.pairDocument staleContext
    (.autoAttach ⟨["b"], [], none⟩ (some ⟨"i", "t"⟩) fun _ => .ok (some ⟨"k", ["a", "b"]⟩)) []
    Catalog.ofDocument_pair (by decide)
  have hmade : (exec (run staleContext (.autoAttach ⟨["b"], [], none⟩ (some ⟨"i", "t"⟩)
      fun _ => .ok (some ⟨"k", ["a", "b"]⟩))) []).2.map (fun call => (call.action, call.service.name)) =
      [(ServiceAction.enable, ("b" : Text))] := by
    decide +kernel
  rw [hcalls, List.nil_append] at hmade
  obtain ⟨call, rfl, hcall⟩ := List.map_eq_singleton_iff.mp hmade
  obtain ⟨haction, hname⟩ := Prod.mk.inj hcall
  cases hsafe.1 with
  | enable _ _ _ new _ => exact new (by simpa [staleContext] using hname)
  | disable => cases haction

end Resolver

end Subscription
