import Subscription.Proofs.Executor.Replies
import Subscription.Proofs.Executor.Turns

/-!
Attempts to enable the names of a session, and whom their failures come from. A change ends with all its
calls carried out, whatever it comes to, or with one call that the handler turns down; only in the latter
case is the name put down as one that the handler has failed. A name that is asked for once is put down at
the end of the session exactly when its attempt has ended that way.
-/

namespace Subscription.Executor

variable {x : Setting} {action : ServiceAction} {who m n : Text} {settled names : List Text}
  {p q : Progress}

/-! ### One attempt -/

/-- The turn of a name, with what there was before and after it. -/
structure Attempt where
  name : Text
  before : Progress
  after : Progress

/-- An attempt that ends in a failure of the handler: the last call is turned down, and the reply to it is
the error that is recorded. -/
def Attempt.TurnedDown (t : Attempt) (h : Handler) : Prop :=
  ∃ made call message code, t.after.calls = t.before.calls ++ (made ++ [call]) ∧
    h.respond (t.before.calls ++ made) call = .failed message code ∧
    t.after.tally.errors = t.before.tally.errors ++ [⟨message, code, some t.name, .service⟩]

theorem Attempt.not_turnedDown {t : Attempt} {h : Handler} {new : List Call}
    (calls : t.after.calls = t.before.calls ++ new) (heard : ¬h.TurnsDown t.before.calls new) :
    ¬t.TurnedDown h := by
  rintro ⟨made, call, message, code, hcalls, hreply, -⟩
  obtain rfl : new = made ++ [call] := List.append_cancel_left (calls.symm.trans hcalls)
  apply heard
  rw [Handler.turnsDown_append]
  exact Or.inr ⟨_, List.mem_cons_self, by simp [hreply, Reply.turnsDown]⟩

/-- How a change ends. The handler is behind a failure exactly when it has turned down the last call. -/
inductive Ended (x : Setting) (who : Text) (p : Progress) :
    Except Fault (Option Entry) × Progress → Prop
  | heard {q : Progress} {new : List Call} {failure : Option Entry}
      (calls : q.calls = p.calls ++ new) (heard : ¬x.handler.TurnsDown p.calls new)
      (errors : q.tally.errors = p.tally.errors) (same : q.handlerFailed = p.handlerFailed) :
      Ended x who p (.ok failure, q)
  | turnedDown {q : Progress} {made : List Call} {call : Call} {message code : Text}
      (calls : q.calls = p.calls ++ (made ++ [call]))
      (reply : x.handler.respond (p.calls ++ made) call = .failed message code)
      (errors : q.tally.errors = p.tally.errors)
      (blamed : q.handlerFailed = p.handlerFailed ++ [who]) :
      Ended x who p (.ok (some ⟨message, code, some who, .service⟩), q)
  | raised (f : Fault) (q : Progress) : Ended x who p (.error f, q)

theorem ended_invoke (s : Service) : Ended x who p (exec (invoke x action s who) p) := by
  have hreplies : x.handler.replies p.calls [x.call action s] =
      [(x.call action s, x.handler.respond p.calls (x.call action s))] := rfl
  rw [exec_invoke]
  cases hreply : x.handler.respond p.calls (x.call action s) with
  | raised text => exact .raised _ _
  | failed message code =>
    have hfirst : x.handler.respond (p.calls ++ []) (x.call action s) = .failed message code := by
      rwa [List.append_nil]
    exact .turnedDown rfl hfirst rfl rfl
  | done needsReboot notices =>
    have hheard : ¬x.handler.TurnsDown p.calls [x.call action s] := by
      simp [Handler.TurnsDown, hreplies, hreply, Reply.turnsDown]
    exact .heard rfl hheard rfl rfl

theorem compositional_ended : Compositional x action who (Ended x who) where
  nothing p := .heard (List.append_nil _).symm Handler.not_turnsDown_nil rfl rfl
  refused p m := .heard (List.append_nil _).symm Handler.not_turnsDown_nil rfl rfl
  broken p f := .raised f p
  warned p title := .heard (List.append_nil _).symm Handler.not_turnsDown_nil rfl rfl
  invoked s p := ended_invoke s
  trans := by
    rintro p q result ⟨hcalls, hheard, herrors, hsame⟩ h
    cases h with
    | heard hcalls' hheard' herrors' hsame' =>
      rw [hcalls] at hcalls' hheard'
      refine .heard (hcalls'.trans (List.append_assoc ..)) ?_ (herrors'.trans herrors)
        (hsame'.trans hsame)
      rw [Handler.turnsDown_append]
      exact not_or.mpr ⟨hheard, hheard'⟩
    | turnedDown hcalls' hreply herrors' hblamed =>
      rw [hcalls] at hcalls' hreply
      rw [List.append_assoc] at hcalls' hreply
      exact .turnedDown (by rw [hcalls', List.append_assoc]) hreply (herrors'.trans herrors)
        (by rw [hblamed, hsame])
    | raised f q => exact .raised f q

/-- The name is put down in its turn exactly when the handler turns it down; nothing else is. -/
theorem blamed_change (known : x.catalog.has n) (h : exec (change x action n) p = (.ok (), q)) :
    m ∈ q.handlerFailed ↔
      (m ∈ p.handlerFailed ∧ m ≠ n) ∨ m = n ∧ Attempt.TurnedDown ⟨n, p, q⟩ x.handler := by
  obtain ⟨s, hs⟩ := Catalog.has_iff.mp known
  have hforget : m ∈ (p.forget n).handlerFailed ↔ m ∈ p.handlerFailed ∧ m ≠ n := by
    simp [Progress.forget]
  rw [exec_change hs] at h
  split at h
  · cases h
    have hnot : ¬Attempt.TurnedDown ⟨n, p, _⟩ x.handler :=
      Attempt.not_turnedDown (List.append_nil _).symm Handler.not_turnsDown_nil
    exact hforget.trans (or_iff_left fun hturned => hnot hturned.2).symm
  · obtain rfl := Catalog.name_of_find? hs
    have hparts : Compositional x action s.name (Ended x s.name) := compositional_ended
    have hended := hparts.changeService (depthBound x (p.forget s.name)) s hs (p.forget s.name)
    rcases hr : exec (changeService x action (depthBound x (p.forget s.name)) s s.name)
      (p.forget s.name) with ⟨f | failure, r⟩
    · rw [hr] at h
      cases h
    · rw [hr] at h hended
      cases hended with
      | heard hcalls hheard _ hsame =>
        obtain ⟨hcalls', hfailed⟩ : q.calls = r.calls ∧ q.handlerFailed = r.handlerFailed := by
          cases failure <;> cases h <;> exact ⟨rfl, rfl⟩
        have hnot : ¬Attempt.TurnedDown ⟨s.name, p, q⟩ x.handler :=
          Attempt.not_turnedDown (hcalls'.trans hcalls) hheard
        rw [hfailed, hsame, hforget]
        exact (or_iff_left fun hturned => hnot hturned.2).symm
      | @turnedDown _ made call message code hcalls hreply herrors hblamed =>
        obtain ⟨hcalls', hfailed, herrors'⟩ : q.calls = r.calls ∧
            q.handlerFailed = r.handlerFailed ∧
            q.tally.errors = r.tally.errors ++ [⟨message, code, some s.name, .service⟩] := by
          cases h
          exact ⟨rfl, rfl, rfl⟩
        have hturned : Attempt.TurnedDown ⟨s.name, p, q⟩ x.handler :=
          ⟨made, call, message, code, hcalls'.trans hcalls, hreply, herrors ▸ herrors'⟩
        rw [hfailed, hblamed, List.mem_append, hforget, List.mem_singleton, and_iff_left hturned]

/-! ### The attempts of a session -/

/-- A session goes through some attempts, one for each name that is not settled. Each of them is a change,
and starts where the one before has ended; of a settled name nothing is left but a record. -/
inductive Attempts (x : Setting) (settled : List Text) :
    List Text → Progress → List Attempt → Progress → Prop
  | nil (p : Progress) : Attempts x settled [] p [] p
  | skipped {n : Text} {names : List Text} {p q : Progress} {ts : List Attempt} (h : n ∈ settled)
      (rest : Attempts x settled names { p with tally := p.tally.skip n } ts q) :
      Attempts x settled (n :: names) p ts q
  | made {n : Text} {names : List Text} {p q r : Progress} {ts : List Attempt} (h : n ∉ settled)
      (change : exec (change x .enable n) p = (.ok (), q)) (rest : Attempts x settled names q ts r) :
      Attempts x settled (n :: names) p (⟨n, p, q⟩ :: ts) r

/-- A session comes to its end exactly when it goes through attempts. -/
theorem exec_enableUnsettled_eq_ok :
    exec (AutoAttach.enableUnsettled settled x names) p = (.ok (), q) ↔
      ∃ ts, Attempts x settled names p ts q := by
  induction names generalizing p with
  | nil =>
    constructor
    · intro h
      cases h
      exact ⟨[], .nil _⟩
    · rintro ⟨ts, h⟩
      cases h
      rfl
  | cons n names ih =>
    rw [exec_enableUnsettled, exec_bind_eq_ok]
    by_cases hn : n ∈ settled
    · rw [enableUnlessSettled, if_pos hn]
      constructor
      · rintro ⟨_, _, hrecord, hrest⟩
        cases hrecord
        obtain ⟨ts, hts⟩ := ih.mp hrest
        exact ⟨ts, .skipped hn hts⟩
      · rintro ⟨ts, h⟩
        cases h with
        | skipped _ rest => exact ⟨(), _, rfl, ih.mpr ⟨ts, rest⟩⟩
        | made hnot => exact absurd hn hnot
    · rw [enableUnlessSettled, if_neg hn]
      constructor
      · rintro ⟨_, r, hchange, hrest⟩
        obtain ⟨ts, hts⟩ := ih.mp hrest
        exact ⟨_, .made hn hchange hts⟩
      · rintro ⟨ts, h⟩
        cases h with
        | skipped hsettled => exact absurd hsettled hn
        | made _ hchange rest => exact ⟨(), _, hchange, ih.mpr ⟨_, rest⟩⟩

namespace Attempts

variable {ts : List Attempt} {t : Attempt}

theorem map_name (h : Attempts x settled names p ts q) :
    ts.map (·.name) = names.filter (· ∉ settled) := by
  induction h with
  | nil => rfl
  | skipped h _ ih => simp [h, ih]
  | made h _ _ ih => simp [h, ih]

theorem turns (h : Attempts x settled names p ts q) (wf : x.catalog.WellFormed)
    (known : ∀ n ∈ names, x.catalog.has n) (hp : p.enabled.Nodup) :
    Turns x .enable settled names p q :=
  turns_of_enableUnsettled wf known hp (exec_enableUnsettled_eq_ok.mpr ⟨ts, h⟩)

theorem nodup (h : Attempts x settled names p ts q) (wf : x.catalog.WellFormed)
    (known : ∀ n ∈ names, x.catalog.has n) (hp : p.enabled.Nodup) : q.enabled.Nodup :=
  (h.turns wf known hp).nodup hp

/-- At the end those names are put down whose attempt the handler has turned down, and those that were
before and have had no attempt. -/
theorem mem_handlerFailed (h : Attempts x settled names p ts q) (known : ∀ n ∈ names, x.catalog.has n)
    (nodup : names.Nodup) :
    m ∈ q.handlerFailed ↔ (m ∈ p.handlerFailed ∧ m ∉ ts.map (·.name)) ∨
      ∃ t ∈ ts, t.name = m ∧ t.TurnedDown x.handler := by
  induction h with
  | nil => simp
  | skipped _ _ ih => exact ih (fun m hm => known m (List.mem_cons_of_mem _ hm)) nodup.of_cons
  | @made n names p q r ts hn hchange rest ih =>
    have hone : m ∈ q.handlerFailed ↔ _ := blamed_change (known n List.mem_cons_self) hchange
    have hother : n ∉ ts.map (·.name) := by
      rw [rest.map_name]
      exact fun hmem => (List.nodup_cons.mp nodup).1 (List.mem_filter.mp hmem).1
    rw [ih (fun m hm => known m (List.mem_cons_of_mem n hm)) nodup.of_cons, hone]
    simp only [List.map_cons, List.mem_cons, exists_eq_or_imp]
    by_cases hm : m = n
    · subst hm
      simp [hother]
    · simp [hm, Ne.symm hm]

theorem grows (h : Attempts x settled names p ts q) (known : ∀ n ∈ names, x.catalog.has n) :
    Grows p q := by
  have hgrows := pervasive_grows.enableUnsettled settled known p
  rwa [exec_enableUnsettled_eq_ok.mpr ⟨ts, h⟩] at hgrows

/-- Each attempt is a turn, and what it has put on record is there at the end. -/
theorem turn (h : Attempts x settled names p ts q) (wf : x.catalog.WellFormed)
    (known : ∀ n ∈ names, x.catalog.has n) (hp : p.enabled.Nodup) (ht : t ∈ ts) :
    Turn x .enable t.name t.before (.ok (), t.after) ∧
      t.after.tally.outcomes <+: q.tally.outcomes := by
  induction h with
  | nil => cases ht
  | skipped _ _ ih => exact ih (fun m hm => known m (List.mem_cons_of_mem _ hm)) hp ht
  | @made n names p q r ts _ hchange rest ih =>
    have hknown := fun m hm => known m (List.mem_cons_of_mem n hm)
    have hfirst : Turn x .enable n p (exec (change x .enable n) p) :=
      turn_change wf (known n List.mem_cons_self) hp
    rw [hchange] at hfirst
    rcases List.mem_cons.mp ht with rfl | ht
    · exact ⟨hfirst, (rest.grows hknown).outcomes⟩
    · exact ih hknown (hfirst.nodup hp) ht

theorem failure_of_turnedDown (h : Attempts x settled names p ts q) (wf : x.catalog.WellFormed)
    (known : ∀ n ∈ names, x.catalog.has n) (hp : p.enabled.Nodup) (ht : t ∈ ts)
    (hturned : t.TurnedDown x.handler) : (t.name, .failure) ∈ q.tally.outcomes := by
  obtain ⟨hturn, hrecord⟩ := h.turn wf known hp ht
  obtain ⟨_, _, _, _, _, _, herrors⟩ := hturned
  rcases hturn.outcome with ⟨-, hsame, -⟩ | ⟨houtcomes, -⟩
  · rw [hsame] at herrors
    simp at herrors
  · exact hrecord.subset (by simp [houtcomes])

end Attempts

end Subscription.Executor
