import Subscription.Proofs.Executor.Replay
import Subscription.Proofs.Executor.Revocation

/-!
Taking away what is no longer granted, however the handler answers. The warning that a service is no
longer granted comes before the handler is asked, so that it stays when the handler turns the service
down. What is enabled in the end is told from the calls: a service has gone exactly when a call for it was
carried out, be it in its own turn or on behalf of a later name that it needs.
-/

namespace Subscription

namespace Handler

variable {h : Handler} {past xs ys new : List Call} {enabled : List Text} {n : Text}

def CarriesOut (h : Handler) (past new : List Call) (n : Text) : Prop :=
  ∃ r ∈ h.replies past new, r.1.service.name = n ∧ r.2.isDone = true

theorem not_carriesOut_nil : ¬h.CarriesOut past [] n := by
  simp [CarriesOut, replies]

theorem carriesOut_cons {call : Call} : h.CarriesOut past (call :: new) n ↔
    (call.service.name = n ∧ (h.respond past call).isDone = true) ∨
      h.CarriesOut (past ++ [call]) new n := by
  simp only [CarriesOut, replies, List.exists_mem_cons_iff]

/-- Of calls that disable services, those that are carried out take their services away. -/
theorem mem_replay_of_disable (disables : ∀ call ∈ new, call.action = .disable)
    (nodup : enabled.Nodup) :
    n ∈ h.replay past enabled new ↔ n ∈ enabled ∧ ¬h.CarriesOut past new n := by
  induction new generalizing past enabled with
  | nil => simp [replay, not_carriesOut_nil]
  | cons call new ih =>
    have hcall := disables call List.mem_cons_self
    have hrest := fun d hd => disables d (List.mem_cons_of_mem call hd)
    rw [replay, carriesOut_cons, not_or]
    cases hreply : h.respond past call with
    | done needsReboot notices =>
      have heffect : h.effect past call enabled = enabled.erase call.service.name := by
        simp [effect, hreply, hcall, Executor.applyChange]
      rw [heffect, ih hrest (nodup.erase _), nodup.mem_erase_iff]
      simp only [Reply.isDone, and_true, ← and_assoc]
      rw [and_comm (a := n ≠ _), ne_comm]
    | failed message code | raised text =>
      have heffect : h.effect past call enabled = enabled := by
        simp [effect, hreply]
      rw [heffect, ih hrest nodup]
      simp [Reply.isDone]

theorem carriesOut_of_mem_notices {e : Entry} (he : e ∈ h.notices past new)
    (hn : e.service = some n) : h.CarriesOut past new n := by
  obtain ⟨r, hr, he⟩ := List.mem_flatMap.mp he
  cases hreply : r.2 with
  | done needsReboot notices =>
    rw [hreply] at he
    obtain ⟨notice, _, rfl⟩ := List.mem_map.mp he
    exact ⟨r, hr, Option.some.inj hn, by rw [hreply]; rfl⟩
  | failed message code | raised text =>
    rw [hreply] at he
    cases he

end Handler

theorem Entry.Own.code_ne {e : Entry} (h : e.Own) : e.code ≠ revocationCode := by
  rcases h with rfl | ⟨who, action, title, rfl⟩
  · decide
  · cases action
    · show ("enabling-required-service" : Text) ≠ revocationCode
      decide
    · show ("disabling-dependent-service" : Text) ≠ revocationCode
      decide

namespace Executor

variable {x : Setting} {n : Text} {names names' : List Text} {xs ys : List Call}
  {os os' : List (Text × Outcome)} {p q r : Progress}

/-- What has come of some names while some calls were made: those that were still enabled had their turn
and left an outcome, and of those and of no others it was said that they are no longer granted, unless
the handler said so itself. A name that has gone although its turn failed has gone on behalf of a later
one. -/
structure Dismissed (x : Setting) (names : List Text) (new : List Call) (os : List (Text × Outcome))
    (p q : Progress) : Prop where
  recounts : Recounts x.handler new p q
  disables : ∀ call ∈ new, call.action = .disable
  subset : ∀ m ∈ q.enabled, m ∈ p.enabled
  outcomes : q.tally.outcomes = p.tally.outcomes ++ os
  turned : ∀ o ∈ os, o.1 ∈ names ∧ o.1 ∈ p.enabled ∧ o.2 ≠ .skipped
  done : ∀ m, (m, .success) ∈ os → m ∉ q.enabled
  said : ∀ m, m ∈ q.revocations ↔ m ∈ p.revocations ∨ m ∈ os.map (·.1) ∨
    m ∈ revocations (x.handler.notices p.calls new)
  leads : ∀ m ∈ p.enabled, m ∉ q.enabled →
    ∃ k ∈ names, Catalog.LeadsTo x.catalog.dependentsOf k m
  later : ∀ m, (m, .failure) ∈ os → m ∉ q.enabled →
    ∃ k, [m, k].Sublist names ∧ Catalog.LeadsTo x.catalog.dependentsOf k m

namespace Dismissed

theorem idle (names : List Text) (p : Progress) : Dismissed x names [] [] p p where
  recounts := recounts_nil rfl rfl
  disables := nofun
  subset _ hm := hm
  outcomes := (List.append_nil _).symm
  turned := nofun
  done := nofun
  said m := by simp [Handler.notices, Handler.replies, revocations]
  leads m hm hgone := absurd hm hgone
  later := nofun

theorem trans (h : Dismissed x names xs os p q) (h' : Dismissed x names' ys os' q r) :
    Dismissed x (names ++ names') (xs ++ ys) (os ++ os') p r where
  recounts := h.recounts.trans h'.recounts
  disables := List.forall_mem_append.mpr ⟨h.disables, h'.disables⟩
  subset m hm := h.subset m (h'.subset m hm)
  outcomes := by rw [h'.outcomes, h.outcomes, List.append_assoc]
  turned := by
    refine List.forall_mem_append.mpr ⟨fun o ho => ?_, fun o ho => ?_⟩
    · obtain ⟨hmem, hthere⟩ := h.turned o ho
      exact ⟨List.mem_append_left _ hmem, hthere⟩
    · obtain ⟨hmem, hthere, hturned⟩ := h'.turned o ho
      exact ⟨List.mem_append_right _ hmem, h.subset _ hthere, hturned⟩
  done m hm := by
    rcases List.mem_append.mp hm with hm | hm
    · exact fun hr => h.done m hm (h'.subset m hr)
    · exact h'.done m hm
  said m := by
    rw [h'.said, h.said, h.recounts.calls, Handler.notices_append, revocations_append,
      List.map_append, List.mem_append, List.mem_append]
    simp only [or_assoc, or_left_comm]
  leads m hm hgone := by
    by_cases hq : m ∈ q.enabled
    · obtain ⟨k, hk, hleads⟩ := h'.leads m hq hgone
      exact ⟨k, List.mem_append_right _ hk, hleads⟩
    · obtain ⟨k, hk, hleads⟩ := h.leads m hm hq
      exact ⟨k, List.mem_append_left _ hk, hleads⟩
  later m hm hgone := by
    rcases List.mem_append.mp hm with hm | hm
    · by_cases hq : m ∈ q.enabled
      · obtain ⟨k, hk, hleads⟩ := h'.leads m hq hgone
        have hmem := (h.turned _ hm).1
        exact ⟨k, (List.singleton_sublist.mpr hmem).append (List.singleton_sublist.mpr hk), hleads⟩
      · obtain ⟨k, hk, hleads⟩ := h.later m hm hq
        exact ⟨k, hk.trans (List.sublist_append_left _ _), hleads⟩
    · obtain ⟨k, hk, hleads⟩ := h'.later m hm hgone
      exact ⟨k, hk.trans (List.sublist_append_right _ _), hleads⟩

end Dismissed

theorem revocations_of_heard {s : Service} {new : List Call} {u : Tally}
    (h : x.handler.Heard p.calls new
      (p.tally.addWarning (.ofService s.name (.noLongerEntitled s.title))) u) :
    revocations u.warnings = p.revocations ++ s.name :: revocations (x.handler.notices p.calls new) := by
  obtain ⟨said, hsaid, hnotices⟩ := h.warnings
  have hrest : revocations said = revocations (x.handler.notices p.calls new) := by
    unfold revocations
    rw [hnotices.filter_eq fun e he => by simpa using he.code_ne]
  rw [hsaid, revocations_append, hrest, Tally.addWarning, revocations_append, List.append_assoc]
  rfl

theorem Turn.outcome_of_mem (h : Turn x .disable n p (.ok (), q)) (hn : n ∈ p.enabled) :
    ∃ o, q.tally.outcomes = p.tally.outcomes ++ [(n, o)] ∧
      (o = .success ∧ n ∉ q.enabled ∨ o = .failure ∧ n ∈ q.enabled) := by
  rcases h.outcome with ⟨houtcomes, -, hgone, -⟩ | ⟨houtcomes, -, hsame, -⟩
  · exact ⟨.success, houtcomes, Or.inl ⟨rfl, of_decide_eq_false hgone⟩⟩
  · have hthere := hsame.trans (pending_disable.mpr hn)
    exact ⟨.failure, houtcomes, Or.inr ⟨rfl, pending_disable.mp hthere⟩⟩

/-- What comes of the turn of a name that was warned of. -/
theorem dismissed_of_turn {s : Service} {new : List Call}
    (turn : Turn x .disable s.name
      { p with tally := p.tally.addWarning (.ofService s.name (.noLongerEntitled s.title)) } (.ok (), q))
    (recounts : Recounts x.handler new p q) (disables : ∀ call ∈ new, call.action = .disable)
    (heard : x.handler.Heard p.calls new
      (p.tally.addWarning (.ofService s.name (.noLongerEntitled s.title))) q.tally)
    (hp : p.enabled.Nodup) (hn : s.name ∈ p.enabled) :
    ∃ o, Dismissed x [s.name] new [(s.name, o)] p q := by
  have hmem : ∀ m, m ∈ q.enabled ↔ m ∈ p.enabled ∧ ¬x.handler.CarriesOut p.calls new m := by
    intro m
    rw [recounts.enabled]
    exact Handler.mem_replay_of_disable disables hp
  obtain ⟨o, houtcomes, ho⟩ := turn.outcome_of_mem hn
  exact ⟨o, {
    recounts := recounts
    disables := disables
    subset := fun m hm => ((hmem m).mp hm).1
    outcomes := houtcomes
    turned := by
      refine List.forall_mem_singleton.mpr ⟨List.mem_cons_self, hn, ?_⟩
      rcases ho with ⟨rfl, -⟩ | ⟨rfl, -⟩ <;> exact Outcome.noConfusion
    done := fun m hm => by
      obtain ⟨rfl, rfl⟩ : m = s.name ∧ Outcome.success = o := by simpa using hm
      exact (ho.resolve_right fun h => by cases h.1).2
    said := fun m => by
      have hsaid : q.revocations = p.revocations ++
          s.name :: revocations (x.handler.notices p.calls new) := revocations_of_heard heard
      rw [hsaid, List.mem_append, List.mem_cons, List.map_singleton, List.mem_singleton]
    leads := fun m hm hgone => ⟨s.name, List.mem_cons_self,
      (turn.leadsTo_of_changed hp (pending_disable.mpr hm) (decide_eq_false hgone)).2⟩
    later := fun m hm hgone => by
      obtain ⟨rfl, rfl⟩ : m = s.name ∧ Outcome.failure = o := by simpa using hm
      exact absurd (ho.resolve_left fun h => by cases h.1).2 hgone }⟩

/-- The turn of a name that is no longer granted, and still enabled. -/
theorem dismissed_revoke (wf : x.catalog.WellFormed) (answers : x.handler.Answers)
    (known : x.catalog.has n) (hp : p.enabled.Nodup) (hn : n ∈ p.enabled) :
    ∃ q new os, exec (revoke x n) p = (.ok (), q) ∧ q.enabled.Nodup ∧ Dismissed x [n] new os p q := by
  obtain ⟨s, hs⟩ := Catalog.has_iff.mp known
  obtain rfl := Catalog.name_of_find? hs
  rw [exec_revoke_of_mem hs hn]
  set p' : Progress :=
    { p with tally := p.tally.addWarning (.ofService s.name (.noLongerEntitled s.title)) }
  have hturn : Turn x .disable s.name p' (exec (change x .disable s.name) p') :=
    turn_change wf known hp
  obtain ⟨new, hrecounts, hheard⟩ : Explains x p' (exec (change x .disable s.name) p').2 :=
    explains_change wf known p'
  obtain ⟨new', hcalls, hnew⟩ : Called .disable (fun _ => True) p'
      (exec (change x .disable s.name) p').2 := pervasive_called.change known p'
  rw [hrecounts.calls, List.append_cancel_left_eq] at hcalls
  generalize exec (change x .disable s.name) p' = result at hturn hrecounts hheard ⊢
  rcases result with ⟨f | ⟨⟩, q⟩
  · cases hturn with
    | raised _ hraises => exact absurd hraises (answers.not_raises f)
  · obtain ⟨o, hdismissed⟩ := dismissed_of_turn hturn
      ⟨hrecounts.calls, hrecounts.enabled, hrecounts.pending⟩
      (fun call hcall => (hnew call (hcalls ▸ hcall)).1) hheard hp hn
    exact ⟨q, new, _, rfl, hturn.nodup hp, hdismissed⟩

/-- With a handler that answers, names that are no longer granted are dealt with one by one. -/
theorem dismissed_revokeAll (wf : x.catalog.WellFormed) (answers : x.handler.Answers)
    (known : ∀ n ∈ names, x.catalog.has n) (hp : p.enabled.Nodup) :
    ∃ q new os, exec (revokeAll x names) p = (.ok (), q) ∧ Dismissed x names new os p q := by
  induction names generalizing p with
  | nil => exact ⟨p, [], [], rfl, .idle [] p⟩
  | cons n names ih =>
    have hknown := fun m hm => known m (List.mem_cons_of_mem n hm)
    rw [exec_revokeAll, exec_bind]
    by_cases hn : n ∈ p.enabled
    · obtain ⟨r, new, os, hturn, hr, hone⟩ :=
        dismissed_revoke wf answers (known n List.mem_cons_self) hp hn
      obtain ⟨q, more, os', hrest, hothers⟩ := ih hknown hr
      refine ⟨q, _, _, ?_, hone.trans hothers⟩
      rw [hturn]
      exact hrest
    · obtain ⟨q, more, os', hrest, hothers⟩ := ih hknown hp
      refine ⟨q, _, _, ?_, (Dismissed.idle [n] p).trans hothers⟩
      rw [exec_revoke_of_not_mem hn]
      exact hrest

end Executor

end Subscription
