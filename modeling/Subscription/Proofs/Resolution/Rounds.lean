import Subscription.Proofs.Catalog.Accepted
import Subscription.Proofs.Executor.Faults
import Subscription.Proofs.Executor.Turns
import Subscription.Proofs.Resolution.Sound

/-!
The rounds of attaching an instance. Each round is a session of its own, which knows the services that
are enabled but not how they came to be; `trail` keeps what every round has left. A service that fails
its turn and is enabled later in the same round, on behalf of another name, is there when the next round
starts, fails its turn again, and is reported as failed. Nothing else sets the report against the state.
-/

namespace Subscription

open Executor

/-- A report that counts a service among those that were dealt with, and holds nothing against it. -/
structure Report.Credits (r : Report) (n : Text) : Prop where
  processed : n ∈ r.processed
  notFailed : n ∉ r.failed
  noError : ∀ e ∈ r.errors, e.service ≠ some n

theorem Tally.withOutcome_failure_of_success {t : Tally} (h : t.report.verdict = .success) :
    t.withOutcome .failure = [] := by
  simp only [report] at h
  split at h
  · next hempty => simp_all
  · cases h

theorem Tally.mem_withOutcome {t : Tally} {n : Text} {o : Outcome} :
    n ∈ t.withOutcome o ↔ (n, o) ∈ t.outcomes := by
  simp [withOutcome]

theorem Tally.withOutcome_absorb (t u : Tally) (withFailures : Bool) (o : Outcome) :
    (t.absorb u withFailures).withOutcome o =
      t.withOutcome o ++ if carriesOver withFailures o then u.withOutcome o else [] := by
  have hfilter : (u.outcomes.filter fun e => carriesOver withFailures e.2).filter (·.2 = o) =
      if carriesOver withFailures o then u.outcomes.filter (·.2 = o) else [] := by
    rw [List.filter_filter]
    split
    · next h =>
      refine List.filter_congr fun e _ => ?_
      by_cases he : e.2 = o <;> simp [he, h]
    · next h =>
      refine List.filter_eq_nil_iff.mpr fun e _ => ?_
      by_cases he : e.2 = o <;> simp [he, h]
  rw [withOutcome, absorb]
  simp only [List.filter_append, List.map_append, hfilter]
  split <;> rfl

namespace AutoAttach

variable {ctx : Context} {p : Partition} {limit : Number} {n : Text}

/-! ### One round -/

/-- A round on a machine with the given attachment. -/
def round (ctx : Context) (p : Partition) (a : Attachment) (settled : List Text)
    (past : List Call) : Except Fault Unit × Progress :=
  exec (enableUnsettled settled (ctx.setting a true) p.known) (start past a.enabled)

theorem exec_session_round (a : Attachment) (settled : List Text) (past : List Call) :
    exec (ctx.session a true (enableUnsettled settled · p.known)) past =
      match round ctx p a settled past with
      | (.ok _, done) => (.ok done, done.calls)
      | (.error f, done) => (.error f, done.calls) :=
  exec_session ctx a true (enableUnsettled settled · p.known) past

/-- How rounds go: the first one breaks off, or it is the last one, or there are others behind it. -/
theorem rounds_cases (limit : Number) (left : Nat) (a : Attachment) (tally : Tally)
    (settled : List Text) (past : List Call) :
    (∃ f done, round ctx p a settled past = (.error f, done) ∧
      exec (rounds ctx p limit left a tally settled) past = (.error f, done.calls)) ∨
    (∃ done, round ctx p a settled past = (.ok (), done) ∧ (retryable p done = true → left = 0) ∧
      exec (rounds ctx p limit left a tally settled) past =
        (.ok (conclude p limit a tally done), done.calls)) ∨
    ∃ done behind, round ctx p a settled past = (.ok (), done) ∧ retryable p done = true ∧
      left = behind + 1 ∧
      exec (rounds ctx p limit left a tally settled) past =
        exec (rounds ctx p limit behind (a.after done) (tally.absorb done.tally false)
          (settled ++ done.tally.withOutcome .success)) done.calls := by
  rcases hround : round ctx p a settled past with ⟨f | _, done⟩
  · refine .inl ⟨f, done, rfl, ?_⟩
    cases left <;> rw [rounds, exec_bind, exec_session_round, hround]
  · cases left with
    | zero =>
      refine .inr (.inl ⟨done, rfl, fun _ => rfl, ?_⟩)
      rw [rounds, exec_bind, exec_session_round, hround]
      rfl
    | succ behind =>
      by_cases hretry : retryable p done
      · refine .inr (.inr ⟨done, behind, rfl, hretry, rfl, ?_⟩)
        rw [rounds, exec_bind, exec_session_round, hround]
        exact congrArg (exec · done.calls) (if_pos hretry)
      · refine .inr (.inl ⟨done, rfl, fun hretry' => absurd hretry' hretry, ?_⟩)
        rw [rounds, exec_bind, exec_session_round, hround]
        exact congrArg (exec · done.calls) (if_neg hretry)

theorem throws_rounds (wf : ctx.catalog.WellFormed) (known : ∀ n ∈ p.known, ctx.catalog.has n)
    (limit : Number) (left : Nat) :
    ∀ (a : Attachment) (tally : Tally) (settled : List Text),
      Throws (rounds ctx p limit left a tally settled) ctx.handler.Raises := by
  have hround : ∀ (a : Attachment) (settled : List Text),
      Throws (ctx.session a true (enableUnsettled settled · p.known)) ctx.handler.Raises :=
    fun a settled => throws_session (throws_enableUnsettled wf known)
  induction left with
  | zero => exact fun a tally settled => throws_bind (hround a settled) fun _ => throws_pure _
  | succ left ih =>
    intro a tally settled
    rw [rounds]
    refine throws_bind (hround a settled) fun done => ?_
    split
    · exact ih _ _ _
    · exact throws_pure _

/-- What a round leaves of one of its names. -/
structure Left (a : Attachment) (settled : List Text) (done : Progress) (n : Text) : Prop where
  passed : n ∈ settled → n ∉ done.tally.withOutcome .failure
  decided : n ∉ settled → (n ∈ done.tally.withOutcome .success ↔
    n ∉ done.tally.withOutcome .failure)
  errors : (∃ e ∈ done.tally.errors, e.service = some n) ↔ n ∈ done.tally.withOutcome .failure
  there : n ∉ settled → n ∈ a.enabled → n ∈ done.tally.withOutcome .failure

theorem Left.mem_settled {a : Attachment} {settled : List Text} {done : Progress}
    (h : Left a settled done n) (hn : n ∉ settled) :
    n ∈ settled ++ done.tally.withOutcome .success ↔ n ∉ done.tally.withOutcome .failure := by
  rw [List.mem_append, h.decided hn]
  exact or_iff_right hn

theorem left_of_turns {a : Attachment} {settled : List Text} {past : List Call} {done : Progress}
    (nodup : p.known.Nodup) (ha : a.enabled.Nodup)
    (h : Turns (ctx.setting a true) .enable settled p.known (start past a.enabled) done)
    (hn : n ∈ p.known) : Left a settled done n := by
  obtain ⟨os, houtcomes, hnames, hskipped, herrors⟩ := h.record
  have houtcomes : done.tally.outcomes = os := houtcomes
  obtain ⟨⟨m, o⟩, ho, hm⟩ := List.mem_map.mp (hnames ▸ hn : n ∈ os.map (·.1))
  obtain rfl : m = n := hm
  -- No name is asked for twice, so each has a single outcome.
  have hof : ∀ o', m ∈ done.tally.withOutcome o' ↔ o' = o := by
    intro o'
    rw [Tally.mem_withOutcome, houtcomes]
    have hnd : (os.map (·.1)).Nodup := hnames ▸ nodup
    exact ⟨fun h => congrArg Prod.snd (List.inj_on_of_nodup_map hnd h ho rfl), fun h => h ▸ ho⟩
  have hskip : o = .skipped ↔ m ∈ settled := hskipped _ ho
  have hdecided : m ∉ settled → (m ∈ done.tally.withOutcome .success ↔
      m ∉ done.tally.withOutcome .failure) := by
    intro hsettled
    rw [hof, hof]
    cases o with
    | success | failure => simp
    | skipped => exact absurd (hskip.mp rfl) hsettled
  refine ⟨fun hsettled => ?_, hdecided, ?_, fun hsettled hthere => ?_⟩
  · rw [hof, hskip.mpr hsettled]
    decide
  · have hservices : (∃ e ∈ done.tally.errors, e.service = some m) ↔
        some m ∈ done.tally.errors.map (·.service) := List.mem_map.symm
    rw [hservices, herrors, Tally.mem_withOutcome, houtcomes]
    simp [start, Tally.empty]
  · by_contra hne
    have hsuccess := Tally.mem_withOutcome.mp ((hdecided hsettled).mpr hne)
    have := h.not_success ha (by simp [pending, start, hthere]) (by simp [start]) hsuccess
    cases this

/-! ### All rounds -/

/-- What each round leaves, from the first one to the last. They are the rounds that are played in a run of
`rounds`, and no others, by `played_of_rounds`. -/
def trail (ctx : Context) (p : Partition) :
    Nat → Attachment → List Text → List Call → List Progress
  | 0, a, settled, past =>
    match round ctx p a settled past with
    | (.ok _, done) => [done]
    | (.error _, _) => []
  | left + 1, a, settled, past =>
    match round ctx p a settled past with
    | (.ok _, done) =>
      done :: if retryable p done then
        trail ctx p left (a.after done) (settled ++ done.tally.withOutcome .success) done.calls
      else []
    | (.error _, _) => []

theorem trail_last {left : Nat} {a : Attachment} {settled : List Text} {past : List Call}
    {done : Progress} (h : round ctx p a settled past = (.ok (), done))
    (stop : retryable p done = true → left = 0) : trail ctx p left a settled past = [done] := by
  cases left with
  | zero => rw [trail, h]
  | succ left =>
    have hretry : ¬retryable p done = true := fun hretry => Nat.succ_ne_zero left (stop hretry)
    rw [trail, h]
    simp [hretry]

theorem trail_more {left : Nat} {a : Attachment} {settled : List Text} {past : List Call}
    {done : Progress} (h : round ctx p a settled past = (.ok (), done))
    (again : retryable p done = true) :
    trail ctx p (left + 1) a settled past = done ::
      trail ctx p left (a.after done) (settled ++ done.tally.withOutcome .success) done.calls := by
  rw [trail, h]
  simp [again]

/-- Rounds that come to their end. The last one decides, and any other one hands on to those behind it
what it has settled. -/
inductive Finishes (ctx : Context) (p : Partition) (limit : Number) :
    Attachment → Tally → List Text → List Progress → Resolution → Prop
  | last {a : Attachment} {tally : Tally} {settled : List Text} {past : List Call} {done : Progress}
      (turns : Turns (ctx.setting a true) .enable settled p.known (start past a.enabled) done) :
      Finishes ctx p limit a tally settled [done] (conclude p limit a tally done)
  | more {a : Attachment} {tally : Tally} {settled : List Text} {past : List Call} {done : Progress}
      {rest : List Progress} {r : Resolution}
      (turns : Turns (ctx.setting a true) .enable settled p.known (start past a.enabled) done)
      (behind : Finishes ctx p limit (a.after done) (tally.absorb done.tally false)
        (settled ++ done.tally.withOutcome .success) rest r) :
      Finishes ctx p limit a tally settled (done :: rest) r

theorem finishes_rounds (wf : ctx.catalog.WellFormed) (known : ∀ n ∈ p.known, ctx.catalog.has n)
    (left : Nat) :
    ∀ (a : Attachment) (tally : Tally) (settled : List Text) (past past' : List Call)
      (r : Resolution), a.enabled.Nodup →
      exec (rounds ctx p limit left a tally settled) past = (.ok r, past') →
      Finishes ctx p limit a tally settled (trail ctx p left a settled past) r := by
  induction left using Nat.strong_induction_on with
  | _ left ih =>
    intro a tally settled past past' r ha h
    rcases rounds_cases limit left a tally settled past with ⟨f, done, -, hexec⟩ |
      ⟨done, hround, stop, hexec⟩ | ⟨done, behind, hround, again, rfl, hexec⟩
    all_goals rw [hexec] at h
    · cases h
    · cases h
      rw [trail_last hround stop]
      exact .last (turns_of_enableUnsettled wf known ha hround)
    · have hturns : Turns (ctx.setting a true) .enable settled p.known (start past a.enabled) done :=
        turns_of_enableUnsettled wf known ha hround
      rw [trail_more hround again]
      exact .more hturns (ih behind behind.lt_succ_self _ _ _ _ past' r (hturns.nodup ha) h)

theorem foldl_addError (ms : List Message) (t : Tally) :
    ms.foldl (fun t m => t.addError (.ofSystem m)) t =
      { t with errors := t.errors ++ ms.map .ofSystem } := by
  induction ms generalizing t with
  | nil => simp
  | cons m ms ih =>
    rw [List.foldl_cons, ih]
    simp [Tally.addError]

/-- The report after the last round: what earlier rounds have settled, and all of the last one. -/
theorem report_conclude (a : Attachment) (tally : Tally) (done : Progress) :
    (conclude p limit a tally done).report.processed =
        tally.withOutcome .success ++ done.tally.withOutcome .success ∧
      (conclude p limit a tally done).report.failed =
        tally.withOutcome .failure ++ done.tally.withOutcome .failure ∧
      (conclude p limit a tally done).report.errors =
        tally.errors ++ done.tally.errors ++ (closingErrors p limit done).map .ofSystem := by
  have hsuccess := tally.withOutcome_absorb done.tally true .success
  have hfailure := tally.withOutcome_absorb done.tally true .failure
  rw [conclude, foldl_addError]
  exact ⟨hsuccess, hfailure, rfl⟩

/-- What earlier rounds hand on: the names they have settled, and nothing that failed. -/
structure Handed (tally : Tally) (settled : List Text) : Prop where
  settled : tally.withOutcome .success = settled
  failed : tally.withOutcome .failure = []
  errors : tally.errors = []

theorem Handed.absorb {tally : Tally} {settled : List Text} (h : Handed tally settled)
    (done : Tally) :
    Handed (tally.absorb done false) (settled ++ done.withOutcome .success) where
  settled := by
    rw [tally.withOutcome_absorb, h.settled]
    rfl
  failed := by
    rw [tally.withOutcome_absorb, h.failed]
    rfl
  errors := h.errors

/-- The last round decides, except about names that were settled before. -/
theorem credits_conclude {a : Attachment} {tally : Tally} {settled : List Text} {done : Progress}
    (handed : Handed tally settled) (left : Left a settled done n) :
    (conclude p limit a tally done).report.Credits n ↔ n ∉ done.tally.withOutcome .failure := by
  obtain ⟨hprocessed, hfailed, herrors⟩ := @report_conclude p limit a tally done
  rw [handed.settled] at hprocessed
  rw [handed.failed, List.nil_append] at hfailed
  rw [handed.errors, List.nil_append] at herrors
  constructor
  · intro h
    rw [← hfailed]
    exact h.notFailed
  · intro hnot
    refine ⟨?_, hfailed ▸ hnot, fun e he heq => ?_⟩
    · rw [hprocessed]
      by_cases hsettled : n ∈ settled
      · exact List.mem_append_left _ hsettled
      · exact (left.mem_settled hsettled).mpr hnot
    · rw [herrors, List.mem_append] at he
      rcases he with he | he
      · exact hnot (left.errors.mp ⟨e, he, heq⟩)
      · obtain ⟨m, -, rfl⟩ := List.mem_map.mp he
        cases heq

/-- How rounds account for one of their names: rightly, unless its turn fails in a round in which the
service is enabled all the same. -/
structure Accounts (c : Catalog) (names : List Text) (a : Attachment) (settled : List Text)
    (rounds : List Progress) (r : Report) (final : Attachment) (n : Text) : Prop where
  kept : n ∈ settled → r.Credits n ∧ ∀ done ∈ rounds, n ∉ done.tally.withOutcome .failure
  refused : n ∉ settled → n ∈ a.enabled → ¬r.Credits n
  credited : n ∉ settled → n ∈ final.enabled → (r.Credits n ↔
    ¬∃ done ∈ rounds, n ∈ done.tally.withOutcome .failure ∧ n ∈ done.enabled)
  later : n ∉ a.enabled → n ∈ final.enabled → ¬r.Credits n →
    ∃ m, [n, m].Sublist names ∧ c.Needs m n

/-- A service that fails its turn in a round, and is enabled in the course of it, is enabled on behalf
of a later name. -/
theorem later_of_round {a : Attachment} {settled : List Text} {past : List Call} {done : Progress}
    (ha : a.enabled.Nodup)
    (h : Turns (ctx.setting a true) .enable settled p.known (start past a.enabled) done)
    (hnew : n ∉ a.enabled) (hend : n ∈ done.enabled)
    (hfails : n ∈ done.tally.withOutcome .failure) :
    ∃ m, [n, m].Sublist p.known ∧ ctx.catalog.Needs m n := by
  obtain ⟨m, hsub, -, hleads⟩ := h.later_of_failure ha (by simp [pending, start, hnew])
    (by simp [pending, hend]) (Tally.mem_withOutcome.mp hfails) (by simp [start, Tally.empty])
  exact ⟨m, hsub, hleads⟩

theorem accounts_last {a : Attachment} {tally : Tally} {settled : List Text} {past : List Call}
    {done : Progress} (nodup : p.known.Nodup) (ha : a.enabled.Nodup)
    (handed : Handed tally settled)
    (h : Turns (ctx.setting a true) .enable settled p.known (start past a.enabled) done)
    (hn : n ∈ p.known) :
    Accounts ctx.catalog p.known a settled [done] (conclude p limit a tally done).report
      (a.after done) n := by
  have hleft := left_of_turns nodup ha h hn
  have hcredits : (conclude p limit a tally done).report.Credits n ↔ _ :=
    credits_conclude handed hleft
  refine ⟨fun hsettled => ⟨hcredits.mpr (hleft.passed hsettled), ?_⟩, fun hsettled hthere => ?_,
    fun _ hend => ?_, fun hnew hend hnot => ?_⟩
  · intro d hd
    rw [List.mem_singleton.mp hd]
    exact hleft.passed hsettled
  · rw [hcredits, not_not]
    exact hleft.there hsettled hthere
  · rw [hcredits]
    have hend : n ∈ done.enabled := hend
    simp [hend]
  · rw [hcredits, not_not] at hnot
    exact later_of_round ha h hnew hend hnot

theorem accounts_more {a final : Attachment} {settled : List Text} {past : List Call}
    {done : Progress} {rest : List Progress} {r : Report} (nodup : p.known.Nodup)
    (ha : a.enabled.Nodup)
    (h : Turns (ctx.setting a true) .enable settled p.known (start past a.enabled) done)
    (hn : n ∈ p.known)
    (hrest : Accounts ctx.catalog p.known (a.after done)
      (settled ++ done.tally.withOutcome .success) rest r final n) :
    Accounts ctx.catalog p.known a settled (done :: rest) r final n := by
  have hleft := left_of_turns nodup ha h hn
  have hfails : n ∉ settled → n ∈ done.tally.withOutcome .failure →
      n ∉ settled ++ done.tally.withOutcome .success := fun hsettled hfail hmem =>
    (hleft.mem_settled hsettled).mp hmem hfail
  refine ⟨fun hsettled => ?_, fun hsettled hthere => ?_, fun hsettled hend => ?_,
    fun hnew hend hnot => ?_⟩
  · obtain ⟨hcredits, hnone⟩ := hrest.kept (List.mem_append_left _ hsettled)
    exact ⟨hcredits, List.forall_mem_cons.mpr ⟨hleft.passed hsettled, hnone⟩⟩
  · have hstays : n ∈ done.enabled := by
      have hstart : pending .enable (start past a.enabled).enabled n = false := by
        simp [pending, start, hthere]
      simpa [pending] using h.stays ha hstart
    exact hrest.refused (hfails hsettled (hleft.there hsettled hthere)) hstays
  · by_cases hfail : n ∈ done.tally.withOutcome .failure
    · -- What decides after a failure is whether the next round finds the service enabled.
      by_cases hthere : n ∈ done.enabled
      · have hnot := hrest.refused (hfails hsettled hfail) hthere
        exact iff_of_false hnot fun hnone => hnone ⟨done, List.mem_cons_self, hfail, hthere⟩
      · rw [hrest.credited (hfails hsettled hfail) hend]
        simp [hthere]
    · obtain ⟨hcredits, hnone⟩ := hrest.kept ((hleft.mem_settled hsettled).mpr hfail)
      refine iff_of_true hcredits ?_
      rintro ⟨d, hd, hfail', -⟩
      rcases List.mem_cons.mp hd with rfl | hd
      · exact hfail hfail'
      · exact hnone d hd hfail'
  · have hsettled : n ∉ settled := fun hsettled =>
      hnot (hrest.kept (List.mem_append_left _ hsettled)).1
    have hfail : n ∈ done.tally.withOutcome .failure := by
      by_contra hfail
      exact hnot (hrest.kept ((hleft.mem_settled hsettled).mpr hfail)).1
    by_cases hthere : n ∈ done.enabled
    · exact later_of_round ha h hnew hthere hfail
    · exact hrest.later hthere hend hnot

theorem Finishes.accounts {a : Attachment} {tally : Tally} {settled : List Text}
    {rounds : List Progress} {r : Resolution} (h : Finishes ctx p limit a tally settled rounds r)
    (nodup : p.known.Nodup) (ha : a.enabled.Nodup) (handed : Handed tally settled) :
    ∃ final, r.next = some final ∧
      ∀ n ∈ p.known, Accounts ctx.catalog p.known a settled rounds r.report final n := by
  induction h with
  | last turns => exact ⟨_, rfl, fun n hn => accounts_last nodup ha handed turns hn⟩
  | more turns _ ih =>
    obtain ⟨final, hnext, hrest⟩ := ih (turns.nodup ha) (handed.absorb _)
    exact ⟨final, hnext, fun n hn => accounts_more nodup ha turns hn (hrest n hn)⟩

theorem accounts_rounds (wf : ctx.catalog.WellFormed) (answers : ctx.handler.Answers)
    (known : ∀ n ∈ p.known, ctx.catalog.has n) (nodup : p.known.Nodup) (limit : Number)
    (left : Nat) (a : Attachment) (tally : Tally) (settled : List Text) (past : List Call)
    (ha : a.enabled.Nodup) (handed : Handed tally settled) :
    ∃ r past' final, exec (rounds ctx p limit left a tally settled) past = (.ok r, past') ∧
      r.next = some final ∧ ∀ n ∈ p.known,
        Accounts ctx.catalog p.known a settled (trail ctx p left a settled past) r.report final n := by
  obtain ⟨r, past', hexec⟩ := exec_of_throws (throws_rounds wf known limit left a tally settled)
    answers.not_raises past
  obtain ⟨final, hnext, haccounts⟩ :=
    (finishes_rounds wf known left a tally settled past past' r ha hexec).accounts nodup ha handed
  exact ⟨r, past', final, hexec, hnext, haccounts⟩

end AutoAttach

end Subscription
