import Subscription.Proofs.Executor.Session

/-!
The record of a session. In one that comes to its end each requested name has its turn and leaves
one outcome, in the order of the request, and each failure leaves one error that names it. A name that is
there from the start fails its turn; a name whose turn has failed is changed after all only on behalf of
a later name that leads to it.
-/

namespace Subscription

/-- A handler that answers every call, one way or the other. -/
def Handler.Answers (h : Handler) : Prop :=
  ∀ past call text, h.respond past call ≠ .raised text

theorem Handler.Answers.not_raises {h : Handler} (answers : h.Answers) (f : Fault) : ¬h.Raises f :=
  fun ⟨past, call, text, hraised, _⟩ => answers past call text hraised

theorem Handler.answers_scripted {script : ServiceAction → Text → List Reply}
    (h : ∀ action n text, .raised text ∉ script action n) : (scripted script).Answers := by
  intro past call text
  show (Option.getD (_ : Option Reply) _) ≠ _
  rcases hreply : (script call.action call.service.name)[_]? with _ | reply
  · rw [Option.getD_none, plain]
    exact Reply.noConfusion
  · rw [Option.getD_some]
    rintro rfl
    exact h _ _ text (List.mem_of_getElem? hreply)

namespace Executor

variable {x : Setting} {action : ServiceAction} {settled names : List Text} {n : Text}
  {p q r : Progress}

/-- The turns of some names, of which those that are settled are passed over. -/
inductive Turns (x : Setting) (action : ServiceAction) (settled : List Text) :
    List Text → Progress → Progress → Prop
  | nil (p : Progress) : Turns x action settled [] p p
  | skipped {n : Text} {names : List Text} {p q : Progress} (h : n ∈ settled)
      (rest : Turns x action settled names { p with tally := p.tally.skip n } q) :
      Turns x action settled (n :: names) p q
  | turned {n : Text} {names : List Text} {p q r : Progress} (h : n ∉ settled)
      (turn : Turn x action n p (.ok (), r)) (rest : Turns x action settled names r q) :
      Turns x action settled (n :: names) p q

/-! ### One turn -/

namespace Turn

theorem steps (h : Turn x action n p (.ok (), r)) :
    ∃ q, Steps x action (Catalog.LeadsTo (x.catalog.before action) n) n (p.forget n) q ∧
      r.enabled = q.enabled ∧ r.changed = q.changed := by
  cases h with
  | succeeded steps => exact ⟨_, steps, rfl, rfl⟩
  | failed steps => exact ⟨_, steps, rfl, rfl⟩

theorem nodup (h : Turn x action n p (.ok (), r)) (hp : p.enabled.Nodup) : r.enabled.Nodup := by
  obtain ⟨q, hsteps, henabled, -⟩ := h.steps
  exact henabled ▸ hsteps.nodup hp

theorem stays (h : Turn x action n p (.ok (), r)) (hp : p.enabled.Nodup) {m : Text}
    (hm : pending action p.enabled m = false) : pending action r.enabled m = false := by
  obtain ⟨q, hsteps, henabled, -⟩ := h.steps
  rw [henabled]
  exact hsteps.stays hp hm

theorem changed_subset (h : Turn x action n p (.ok (), r)) : p.changed ⊆ r.changed := by
  obtain ⟨q, hsteps, -, hchanged⟩ := h.steps
  exact hchanged ▸ hsteps.changed_subset

theorem pending_of_mem_changed (h : Turn x action n p (.ok (), r)) (hp : p.enabled.Nodup) {m : Text}
    (hm : m ∈ r.changed) : m ∈ p.changed ∨ pending action p.enabled m = true := by
  obtain ⟨q, hsteps, -, hchanged⟩ := h.steps
  exact (hsteps.pending_of_mem_changed hp (hchanged ▸ hm)).imp_right And.right

theorem leadsTo_of_changed (h : Turn x action n p (.ok (), r)) (hp : p.enabled.Nodup) {m : Text}
    (hstart : pending action p.enabled m = true) (hend : pending action r.enabled m = false) :
    m ∈ r.changed ∧ Catalog.LeadsTo (x.catalog.before action) n m := by
  obtain ⟨q, hsteps, henabled, hchanged⟩ := h.steps
  rw [henabled] at hend
  rw [hchanged]
  refine ⟨hsteps.mem_changed hp hstart hend, ?_⟩
  by_contra hne
  rw [hsteps.pending_of_not_scope hp hne] at hend
  exact absurd (hstart.symm.trans hend) (by decide)

/-- A turn leaves one outcome, and an error when it fails. -/
theorem outcome (h : Turn x action n p (.ok (), r)) :
    (r.tally.outcomes = p.tally.outcomes ++ [(n, .success)] ∧
        r.tally.errors = p.tally.errors ∧
        pending action r.enabled n = false ∧ n ∈ r.changed) ∨
      (r.tally.outcomes = p.tally.outcomes ++ [(n, .failure)] ∧
        (∃ e, e.service = some n ∧ r.tally.errors = p.tally.errors ++ [e]) ∧
        pending action r.enabled n = pending action p.enabled n ∧
        (n ∈ p.changed → pending action p.enabled n = true)) := by
  cases h with
  | succeeded steps done changed =>
    have houtcomes := steps.outcomes_eq
    have herrors := steps.errors_eq
    exact Or.inl ⟨congrArg (· ++ [(n, Outcome.success)]) houtcomes, herrors, done, changed⟩
  | failed steps spared fresh =>
    have houtcomes := steps.outcomes_eq
    have herrors := steps.errors_eq
    exact Or.inr ⟨congrArg (· ++ [(n, Outcome.failure)]) houtcomes,
      ⟨_, rfl, congrArg (· ++ [_]) herrors⟩, spared, fresh⟩

end Turn

/-! ### Turns one after the other -/

namespace Turns

/-- The outcomes are in the order of the names, and the errors in that of the failures. -/
theorem record (h : Turns x action settled names p q) :
    ∃ os : List (Text × Outcome), q.tally.outcomes = p.tally.outcomes ++ os ∧
      os.map (·.1) = names ∧ (∀ o ∈ os, o.2 = .skipped ↔ o.1 ∈ settled) ∧
      q.tally.errors.map (·.service) = p.tally.errors.map (·.service) ++
        (os.filter (·.2 = .failure)).map fun o => some o.1 := by
  induction h with
  | nil p => exact ⟨[], by simp⟩
  | @skipped n names p q hn _ ih =>
    obtain ⟨os, houtcomes, hnames, hskipped, herrors⟩ := ih
    refine ⟨(n, .skipped) :: os, ?_, by rw [List.map_cons, hnames], ?_, herrors⟩
    · rw [houtcomes]
      simp [Tally.skip]
    · simpa [hn] using hskipped
  | @turned n names p q r hn turn _ ih =>
    obtain ⟨os, houtcomes, hnames, hskipped, herrors⟩ := ih
    rcases turn.outcome with ⟨hr, hsame, -⟩ | ⟨hr, ⟨e, he, hmore⟩, -⟩
    · refine ⟨(n, .success) :: os, ?_, by rw [List.map_cons, hnames], ?_, ?_⟩
      · rw [houtcomes, hr, List.append_assoc]
        rfl
      · simpa [hn] using hskipped
      · rw [herrors, hsame]
        rfl
    · refine ⟨(n, .failure) :: os, ?_, by rw [List.map_cons, hnames], ?_, ?_⟩
      · rw [houtcomes, hr, List.append_assoc]
        rfl
      · simpa [hn] using hskipped
      · rw [herrors, hmore]
        simp [he]

/-- What is there from the start, and not on record as changed, does not succeed. -/
theorem not_success (h : Turns x action settled names p q) (hp : p.enabled.Nodup)
    (hthere : pending action p.enabled n = false) (hnew : n ∉ p.changed)
    (hn : (n, .success) ∈ q.tally.outcomes) : (n, .success) ∈ p.tally.outcomes := by
  induction h with
  | nil p => exact hn
  | skipped _ _ ih => simpa [Tally.skip] using ih hp hthere hnew hn
  | @turned m names p q r _ turn _ ih =>
    have hstays := turn.stays hp hthere
    have hunchanged : n ∉ r.changed := by
      intro hr
      rcases turn.pending_of_mem_changed hp hr with hr | hr
      · exact hnew hr
      · exact absurd (hr.symm.trans hthere) (by decide)
    have hr := ih (turn.nodup hp) hstays hunchanged hn
    rcases turn.outcome with ⟨houtcomes, -, -, hchanged⟩ | ⟨houtcomes, -⟩
    · have hne : n ≠ m := fun e => hunchanged (e ▸ hchanged)
      simpa [houtcomes, hne] using hr
    · simpa [houtcomes] using hr

/-- What is on record as changed does not fail. -/
theorem not_failure (h : Turns x action settled names p q) (hp : p.enabled.Nodup)
    (hthere : pending action p.enabled n = false) (hold : n ∈ p.changed)
    (hn : (n, .failure) ∈ q.tally.outcomes) : (n, .failure) ∈ p.tally.outcomes := by
  induction h with
  | nil p => exact hn
  | skipped _ _ ih => simpa [Tally.skip] using ih hp hthere hold hn
  | @turned m names p q r _ turn _ ih =>
    have hstays := turn.stays hp hthere
    have hr := ih (turn.nodup hp) hstays (turn.changed_subset hold) hn
    rcases turn.outcome with ⟨houtcomes, -⟩ | ⟨houtcomes, -, -, hfresh⟩
    · simpa [houtcomes] using hr
    · have hne : n ≠ m := by
        rintro rfl
        exact absurd ((hfresh hold).symm.trans hthere) (by decide)
      simpa [houtcomes, hne] using hr

/-- What is changed is changed in the turn of a name that leads to it. -/
theorem leadsTo_of_changed (h : Turns x action settled names p q) (hp : p.enabled.Nodup)
    (hstart : pending action p.enabled n = true) (hend : pending action q.enabled n = false) :
    ∃ m ∈ names, m ∉ settled ∧ Catalog.LeadsTo (x.catalog.before action) m n := by
  induction h with
  | nil p => exact absurd (hstart.symm.trans hend) (by decide)
  | skipped _ _ ih =>
    obtain ⟨m, hm, hleads⟩ := ih hp hstart hend
    exact ⟨m, List.mem_cons_of_mem _ hm, hleads⟩
  | @turned m names p q r hm turn _ ih =>
    cases hr : pending action r.enabled n with
    | true =>
      obtain ⟨k, hk, hleads⟩ := ih (turn.nodup hp) hr hend
      exact ⟨k, List.mem_cons_of_mem m hk, hleads⟩
    | false => exact ⟨m, List.mem_cons_self, hm, (turn.leadsTo_of_changed hp hstart hr).2⟩

/-- A name that fails and is changed after all is changed in the turn of a later name. -/
theorem later_of_failure (h : Turns x action settled names p q) (hp : p.enabled.Nodup)
    (hstart : pending action p.enabled n = true) (hend : pending action q.enabled n = false)
    (hfails : (n, .failure) ∈ q.tally.outcomes) (hfirst : (n, .failure) ∉ p.tally.outcomes) :
    ∃ m, [n, m].Sublist names ∧ m ∉ settled ∧
      Catalog.LeadsTo (x.catalog.before action) m n := by
  induction h with
  | nil p => exact absurd (hstart.symm.trans hend) (by decide)
  | skipped _ _ ih =>
    obtain ⟨m, hsub, hm⟩ := ih hp hstart hend hfails (by simpa [Tally.skip] using hfirst)
    exact ⟨m, hsub.cons _, hm⟩
  | @turned k names p q r hk turn rest ih =>
    cases hr : pending action r.enabled n with
    | false =>
      -- The turn has changed `n`, so that its own turn, now or later, succeeds.
      have hchanged := (turn.leadsTo_of_changed hp hstart hr).1
      have hfailed := rest.not_failure (turn.nodup hp) hr hchanged hfails
      rcases turn.outcome with ⟨houtcomes, -⟩ | ⟨houtcomes, -, hspared, -⟩
      · exact absurd (by simpa [houtcomes] using hfailed) hfirst
      · have hne : n ≠ k := by
          rintro rfl
          exact absurd ((hspared.trans hstart).symm.trans hr) (by decide)
        exact absurd (by simpa [houtcomes, hne] using hfailed) hfirst
    | true =>
      by_cases hnk : n = k
      · subst hnk
        obtain ⟨m, hm, hleads⟩ := rest.leadsTo_of_changed (turn.nodup hp) hr hend
        exact ⟨m, (List.singleton_sublist.mpr hm).cons_cons n, hleads⟩
      · have hfirst' : (n, .failure) ∉ r.tally.outcomes := by
          rcases turn.outcome with ⟨houtcomes, -⟩ | ⟨houtcomes, -⟩
          · simpa [houtcomes] using hfirst
          · simpa [houtcomes, hnk] using hfirst
        obtain ⟨m, hsub, hm⟩ := ih (turn.nodup hp) hr hend hfails hfirst'
        exact ⟨m, hsub.cons _, hm⟩

theorem stays (h : Turns x action settled names p q) (hp : p.enabled.Nodup)
    (hn : pending action p.enabled n = false) : pending action q.enabled n = false := by
  induction h with
  | nil p => exact hn
  | skipped _ _ ih => exact ih hp hn
  | turned _ turn _ ih => exact ih (turn.nodup hp) (turn.stays hp hn)

theorem nodup (h : Turns x action settled names p q) (hp : p.enabled.Nodup) : q.enabled.Nodup := by
  induction h with
  | nil p => exact hp
  | skipped _ _ ih => exact ih hp
  | turned _ turn _ ih => exact ih (turn.nodup hp)

/-- A name that has its turn fails it, or is changed by then. -/
theorem failure_or_done (h : Turns x action settled names p q) (hp : p.enabled.Nodup)
    (hn : n ∈ names) (hnew : n ∉ settled) :
    (n, .failure) ∈ q.tally.outcomes ∨ pending action q.enabled n = false := by
  induction h with
  | nil p => cases hn
  | skipped hm _ ih =>
    rcases List.mem_cons.mp hn with rfl | hn
    · exact absurd hm hnew
    · exact ih hp hn
  | @turned m names p q r hm turn rest ih =>
    rcases List.mem_cons.mp hn with rfl | hn
    · rcases turn.outcome with ⟨-, -, hdone, -⟩ | ⟨hfailed, -⟩
      · exact Or.inr (rest.stays (turn.nodup hp) hdone)
      · obtain ⟨os, houtcomes, -⟩ := rest.record
        exact Or.inl (by simp [houtcomes, hfailed])
    · exact ih (turn.nodup hp) hn

end Turns

/-- A session that comes to its end has gone over the turns of all names. -/
theorem turns_of_changeAll (wf : x.catalog.WellFormed) (known : ∀ n ∈ names, x.catalog.has n)
    (hp : p.enabled.Nodup) (h : exec (changeAll x action names) p = (.ok (), q)) :
    Turns x action [] names p q := by
  induction names generalizing p with
  | nil =>
    cases h
    exact .nil _
  | cons n names ih =>
    have hturn : Turn x action n p (exec (change x action n) p) :=
      turn_change wf (known n List.mem_cons_self) hp
    rw [changeAll, exec_bind] at h
    rcases hr : exec (change x action n) p with ⟨f | _, r⟩
    · rw [hr] at h
      cases h
    · rw [hr] at h hturn
      exact .turned List.not_mem_nil hturn
        (ih (fun m hm => known m (List.mem_cons_of_mem n hm)) (hturn.nodup hp) h)

theorem turns_of_enableUnsettled (wf : x.catalog.WellFormed) (known : ∀ n ∈ names, x.catalog.has n)
    (hp : p.enabled.Nodup)
    (h : exec (AutoAttach.enableUnsettled settled x names) p = (.ok (), q)) :
    Turns x .enable settled names p q := by
  induction names generalizing p with
  | nil =>
    cases h
    exact .nil _
  | cons n names ih =>
    have hknown := fun m hm => known m (List.mem_cons_of_mem n hm)
    by_cases hn : n ∈ settled
    · rw [AutoAttach.enableUnsettled, if_pos hn] at h
      exact .skipped hn (ih hknown hp h)
    · have hturn : Turn x .enable n p (exec (change x .enable n) p) :=
        turn_change wf (known n List.mem_cons_self) hp
      rw [AutoAttach.enableUnsettled, if_neg hn, exec_bind] at h
      rcases hr : exec (change x .enable n) p with ⟨f | _, r⟩
      · rw [hr] at h
        cases h
      · rw [hr] at h hturn
        exact .turned hn hturn (ih hknown (hturn.nodup hp) h)

end Executor

end Subscription
