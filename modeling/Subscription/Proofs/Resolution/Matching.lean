import Subscription.Proofs.Resolution.Batches

/-!
Reports match their errors. Whatever is resolved, the errors about services are about those that failed,
one for each and in the same order, no service is reported twice, and a report is a failure exactly when
it has an error. The rounds of attaching an instance hand on what they have settled, so that the last one
reports every name of the request at most once.
-/

namespace Subscription

open Executor Catalog

structure Report.Matched (r : Report) : Prop where
  failures : (r.errors.filter (·.scope = .service)).map (·.service) = r.failed.map some
  system : ∀ e ∈ r.errors, e.scope = .system → e.service = none
  once : (r.processed ++ r.failed).Nodup
  verdict : r.verdict = .failure ↔ r.errors ≠ []

/-- A report that explains its failures, and names no service twice, is matched. -/
theorem Report.Explained.matched {r : Report} {ms : List Message} (h : r.Explained ms)
    (once : (r.processed ++ r.failed).Nodup) : r.Matched := by
  obtain ⟨es, herrors, hsubjects⟩ := h.errors
  have hservices : es.map (·.service) = r.failed.map some := by
    have hmap := congrArg (List.map Prod.fst) hsubjects
    simpa [Entry.subject, Function.comp_def] using hmap
  have hes : ∀ e ∈ es, e.scope = .service := by
    intro e he
    have hsubject : e.subject ∈ es.map Entry.subject := List.mem_map_of_mem he
    rw [hsubjects] at hsubject
    obtain ⟨_, -, hn⟩ := List.mem_map.mp hsubject
    exact (congrArg Prod.snd hn).symm
  refine ⟨?_, fun e he hsystem => ?_, once, h.verdict⟩
  · have hown : es.filter (·.scope = .service) = es :=
      List.filter_eq_self.mpr fun e he => by simp [hes e he]
    have hrest : (ms.map Entry.ofSystem).filter (·.scope = .service) = [] := by
      refine List.filter_eq_nil_iff.mpr fun e he => ?_
      obtain ⟨m, -, rfl⟩ := List.mem_map.mp he
      simp [Entry.ofSystem]
    rw [herrors, List.filter_append, hown, hrest, List.append_nil, hservices]
  · rw [herrors, List.mem_append] at he
    rcases he with he | he
    · cases (hes e he).symm.trans hsystem
    · obtain ⟨m, -, rfl⟩ := List.mem_map.mp he
      rfl

theorem Report.Shares.matched {r : Report} {names : List Text} {ms : List Message}
    (h : r.Shares names) (explained : r.Explained ms) : r.Matched :=
  explained.matched (h.each.nodup_iff.mpr h.distinct)

variable {document : Json} {ctx : Context} {os : List (Text × Outcome)} {u : Tally}

theorem nodup_turns {names : List Text} (h : (os.map (·.1)).Sublist names) (distinct : names.Nodup) :
    ((os.filter (·.2 ≠ .skipped)).map (·.1)).Nodup :=
  distinct.sublist ((List.filter_sublist.map _).trans h)

theorem Tally.Gains.matched (h : empty.Gains os u)
    (once : ((os.filter (·.2 ≠ .skipped)).map (·.1)).Nodup) (ms : List Message) :
    (u.reportWith ms).Matched := by
  apply (h.explained ms).matched
  rw [processed_reportWith, failed_reportWith, h.withOutcome, h.withOutcome]
  exact (perm_outcomes os).nodup_iff.mpr once

theorem Report.matched_blocked (m : Message) : (Report.blocked (.ofSystem m)).Matched :=
  (Tally.gains_nil rfl rfl : Tally.empty.Gains [] .empty).matched List.nodup_nil [m]

/-! ### Requests, attaching, detaching and refreshing -/

theorem matched_resolveRequest (request : Request) :
    Yields (resolveRequest ctx request) fun r => r.report.Matched := by
  intro past r past' h
  have hwhole := h
  rw [resolveRequest] at h
  obtain ⟨_, _, hcheck, h⟩ := exec_bind_eq_ok.mp h
  dsimp only at h
  split at h
  · cases h
    exact Report.matched_blocked _
  · next hobstacle =>
    have named : request.names ≠ [] := by
      intro hnone
      rw [exec_liftExcept, Request.check, hnone] at hcheck
      cases hcheck
    obtain ⟨hshares, hexplained⟩ :=
      reports_resolveRequest (Partition.attached_of_obstacle? hobstacle) named hwhole
    exact hshares.matched hexplained

theorem matched_resolveAttach (token : Text) (autoEnable : Bool) (contract : Option Contract) :
    Yields (resolveAttach ctx token autoEnable contract) fun r => r.report.Matched := by
  intro past r past' h
  cases attached : ctx.state.attached with
  | true =>
    simp only [resolveAttach, LifecycleAction.obstacle?, attached] at h
    cases h
    exact Report.matched_blocked _
  | false =>
    cases contract with
    | none =>
      simp only [resolveAttach, LifecycleAction.obstacle?, attached] at h
      cases h
      exact Report.matched_blocked _
    | some contract =>
      cases autoEnable with
      | true =>
        obtain ⟨hshares, hexplained⟩ := reports_resolveAttach attached h
        exact hshares.matched hexplained
      | false =>
        simp only [resolveAttach, LifecycleAction.obstacle?, attached] at h
        cases h
        exact (Tally.gains_nil rfl rfl : Tally.empty.Gains [] .empty).matched List.nodup_nil []

theorem matched_resolveDetach : Yields (resolveDetach ctx) fun r => r.report.Matched := by
  intro past r past' h
  cases attached : ctx.state.attached with
  | false =>
    simp only [resolveDetach, LifecycleAction.obstacle?, attached] at h
    cases h
    exact Report.matched_blocked _
  | true =>
    obtain ⟨hshares, hexplained⟩ := reports_resolveDetach attached h
    exact hshares.matched hexplained

theorem matched_resolveRefresh (contract : Option Contract) :
    Yields (resolveRefresh ctx contract) fun r => r.report.Matched := by
  unfold resolveRefresh
  split
  · exact yields_pure (Report.matched_blocked _)
  · exact yields_pure (Report.matched_blocked _)
  · next contract _ =>
    intro past r past' h
    obtain ⟨done, _, hsession, h⟩ := exec_bind_eq_ok.mp h
    cases h
    obtain ⟨hexec, -⟩ := exec_session_eq_ok.mp hsession
    have known : ∀ n ∈ ctx.catalog.disableOrder (ctx.state.enabled.filter fun n =>
        ctx.catalog.has n && !decide (n ∈ contract.entitlements)), ctx.catalog.has n := by
      intro n hn
      have hlost := (List.mem_filter.mp (mem_sortBy.mp hn)).2
      rw [Bool.and_eq_true] at hlost
      exact hlost.1
    obtain ⟨os, htells, hgains⟩ := gains_revokeAll known hexec
    exact hgains.matched (nodup_turns htells.names (nodup_sortBy _ _)) []

/-! ### Attaching an instance -/

namespace AutoAttach

variable {p : Partition} {limit : Number} {settled names : List Text} {tally : Tally}

theorem nodup_settled (htells : Tells settled names os) (hsettled : settled.Nodup)
    (distinct : names.Nodup) :
    (settled ++ (os.filter (·.2 ≠ .skipped)).map (·.1)).Nodup := by
  refine hsettled.append (nodup_turns (htells.names ▸ List.Sublist.refl _) distinct) ?_
  intro n hn hturn
  obtain ⟨o, ho, rfl⟩ := List.mem_map.mp hturn
  obtain ⟨ho, hskipped⟩ := List.mem_filter.mp ho
  exact (of_decide_eq_true hskipped) ((htells.skipped o ho).mpr hn)

def Settled (settled : List Text) (tally : Tally) : Prop :=
  Tally.empty.Gains (settled.map fun n => (n, .success)) tally

/-- What a round has settled is handed on to the next. -/
theorem Settled.absorb (h : Settled settled tally) (hgains : Tally.empty.Gains os u) :
    Settled (settled ++ u.withOutcome .success) (tally.absorb u false) := by
  have hkept : os.filter (fun o => Tally.carriesOver false o.2) =
      (u.withOutcome .success).map fun n => (n, .success) := by
    rw [hgains.withOutcome, List.map_map]
    have hself : (os.filter (·.2 = .success)).map (fun o => (o.1, Outcome.success)) =
        os.filter (·.2 = .success) := by
      refine (List.map_congr_left ?_).trans (List.map_id _)
      rintro ⟨n, o⟩ ho
      exact congrArg (n, ·) (of_decide_eq_true (List.mem_filter.mp ho).2).symm
    refine Eq.trans (List.filter_congr fun o _ => ?_) hself.symm
    cases o.2 <;> rfl
  rw [Settled, List.map_append, ← hkept]
  exact Tally.Gains.trans h (hgains.absorb tally false)

/-- A session that is the last one makes a matched report. -/
theorem matched_absorb (h : Settled settled tally) (hsettled : settled.Nodup)
    (htells : Tells settled names os) (distinct : names.Nodup) (hgains : Tally.empty.Gains os u)
    (ms : List Message) : ((tally.absorb u true).reportWith ms).Matched := by
  have hall : Tally.empty.Gains _ (tally.absorb u true) :=
    Tally.Gains.trans h (hgains.absorb tally true)
  refine hall.matched ?_ ms
  have hkept : (settled.map fun n => (n, Outcome.success)).filter (·.2 ≠ .skipped) =
      settled.map fun n => (n, .success) :=
    List.filter_eq_self.mpr fun o ho => by
      obtain ⟨n, -, rfl⟩ := List.mem_map.mp ho
      rfl
  have hturned : (os.filter fun o => Tally.carriesOver true o.2).filter (·.2 ≠ .skipped) =
      os.filter (·.2 ≠ .skipped) := by
    rw [List.filter_filter]
    exact List.filter_congr fun o _ => by cases o.2 <;> rfl
  rw [List.filter_append, hkept, hturned, List.map_append, List.map_map]
  have hnames : settled.map (Prod.fst ∘ fun n => (n, Outcome.success)) = settled := List.map_id _
  rw [hnames]
  exact nodup_settled htells hsettled distinct

theorem matched_rounds (known : ∀ n ∈ p.known, ctx.catalog.has n) (distinct : p.known.Nodup)
    (left : Nat) : ∀ (a : Attachment) (tally : Tally) (settled : List Text),
      Settled settled tally → settled.Nodup →
      Yields (rounds ctx p limit left a tally settled) fun r => r.report.Matched := by
  induction left with
  | zero =>
    intro a tally settled h hsettled past r past' hexec
    obtain ⟨done, _, hsession, hexec⟩ := exec_bind_eq_ok.mp hexec
    cases hexec
    obtain ⟨os, htells, hgains⟩ := gains_enableUnsettled known (exec_session_eq_ok.mp hsession).1
    exact matched_absorb h hsettled htells distinct hgains (closingErrors p limit done)
  | succ left ih =>
    intro a tally settled h hsettled past r past' hexec
    rw [rounds] at hexec
    obtain ⟨done, past₁, hsession, hexec⟩ := exec_bind_eq_ok.mp hexec
    obtain ⟨os, htells, hgains⟩ := gains_enableUnsettled known (exec_session_eq_ok.mp hsession).1
    split at hexec
    · have hmore : (settled ++ done.tally.withOutcome .success).Nodup := by
        rw [hgains.withOutcome]
        refine (nodup_settled htells hsettled distinct).sublist (.append_left (.map _ ?_) settled)
        exact List.monotone_filter_right os fun o ho => by simp [of_decide_eq_true ho]
      exact ih _ _ _ (h.absorb hgains) hmore past₁ r past' hexec
    · cases hexec
      exact matched_absorb h hsettled htells distinct hgains (closingErrors p limit done)

/-- An instance that arrives has nothing on record yet but a warning. -/
theorem matched_arrive (token : Option InstanceToken) :
    Yields (arrive ctx token) fun
      | .inl r => r.report.Matched
      | .inr arrival => Settled [] arrival.tally := by
  have hnothing : Settled [] Tally.empty := Tally.gains_nil rfl rfl
  cases token with
  | none => exact yields_pure (Report.matched_blocked _)
  | some token =>
    unfold arrive
    dsimp only
    split
    · exact yields_pure hnothing
    · split
      · exact yields_pure (Report.matched_blocked _)
      · refine yields_bind' fun detached => ?_
        split
        · exact yields_pure (Report.matched_blocked _)
        · exact yields_pure (Tally.gains_nil rfl rfl)

theorem matched_enrol {opts : AutoAttachOptions} {arrival : Arrival} (h : Settled [] arrival.tally)
    (contract : Option Contract) : Yields (enrol ctx opts arrival contract) fun r => r.report.Matched := by
  cases contract with
  | none => exact yields_pure (Tally.Gains.matched h List.nodup_nil [.invalidToken])
  | some contract =>
    unfold enrol
    dsimp only
    split
    · intro past r past' hexec
      obtain ⟨done, _, hsession, hexec⟩ := exec_bind_eq_ok.mp hexec
      cases hexec
      let x := ctx.setting (ctx.freshAttachment contract arrival.token.token
        (some arrival.token.instanceId)) true
      obtain ⟨os, htells, hgains⟩ := gains_changeAll
        (fun n hn => has_of_mem_defaults (x := x) hn) (exec_session_eq_ok.mp hsession).1
      exact matched_absorb h List.nodup_nil htells (nodup_sortBy _ _) hgains []
    · split
      · exact matched_rounds (fun n hn => has_of_knows (mem_known.mp hn).2)
          ((nodup_dedupe _).filter _) _ _ _ _ h List.nodup_nil
      · exact yields_pure (Tally.Gains.matched h List.nodup_nil [.betaServices _])

end AutoAttach

/-! ### All resolutions -/

theorem Resolver.matched (t : Resolver) : Yields (t.run ctx) fun r => r.report.Matched := by
  cases t with
  | request request => exact matched_resolveRequest request
  | attach token autoEnable contract => exact matched_resolveAttach token autoEnable contract
  | detach => exact matched_resolveDetach
  | refresh contract => exact matched_resolveRefresh contract
  | autoAttach opts token contracts =>
    refine yields_bind (AutoAttach.matched_arrive token) fun arrived h => ?_
    cases arrived with
    | inl r => exact yields_pure h
    | inr arrival => exact yields_bind' fun contract => AutoAttach.matched_enrol h contract

/-- With services that come from a document, the report of every resolution is matched; and with a handler
that answers and contracts that can be looked up there is a report, unless a request names nothing. -/
theorem Resolver.report_matched (accepted : ofDocument document = .ok ctx.catalog) (t : Resolver)
    (past : List Call) :
    (∀ r past', exec (t.run ctx) past = (.ok r, past') → r.report.Matched) ∧
      (ctx.handler.Answers → t.LooksUp →
        (∃ r past', exec (t.run ctx) past = (.ok r, past') ∧ r.report.Matched) ∨
          ∃ request, t = .request request ∧ request.names = []) := by
  refine ⟨fun r past' h => t.matched past r past' h, fun answers looksUp => ?_⟩
  rcases returns_or_names_nothing (wellFormed_of_ofDocument accepted) answers looksUp past with
    ⟨r, past', h⟩ | ⟨request, ht, hnames, -⟩
  · exact Or.inl ⟨r, past', h, t.matched past r past' h⟩
  · exact Or.inr ⟨request, ht, hnames⟩

/-- Of two rounds the first one fails for `b`, which the second one enables. -/
theorem Resolver.report_matched_cluttered :
    ∃ r past', exec (move.run clutteredContext) [] = (.ok r, past') ∧ r.report.Matched := by
  have accepted : ofDocument pairDocument = .ok clutteredContext.catalog := ofDocument_pair
  rcases (report_matched accepted move []).2 answers_cluttered fun _ => ⟨_, rfl⟩ with
    hreport | ⟨request, hmove, -⟩
  · exact hreport
  · cases hmove

end Subscription
