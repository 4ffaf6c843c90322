import Subscription.Proofs.Executor.Attempts
import Subscription.Proofs.Resolution.Reporting

/-!
The course of the rounds in which services are enabled on an instance. A round consists of the attempts
that are made in it and of what they leave. `Comprises` ties rounds to a run of the operation: one round
starts where the one before has ended, the last one ends with the calls and the attachment of the run, and
the report is put together from what they have left. `Ends` tells why they end where they do: a round is
followed by another one exactly when that may help and is allowed.
-/

namespace Subscription

open Executor

namespace AutoAttach

variable {ctx : Context} {x : Setting} {p : Partition} {left : Nat}
  {names settled : List Text} {n : Text} {a final : Attachment} {past past' : List Call}

/-! ### One round -/

/-- A round: its attempts, and what it leaves. -/
structure Round where
  attempts : List Attempt
  left : Progress

namespace Round

def attempted (round : Round) : List Text :=
  round.attempts.map (·.name)

def succeeded (round : Round) : List Text :=
  round.left.tally.withOutcome .success

def failed (round : Round) : List Text :=
  round.left.tally.withOutcome .failure

def TurnedDown (round : Round) (h : Handler) (n : Text) : Prop :=
  ∃ t ∈ round.attempts, t.name = n ∧ t.TurnedDown h

end Round

/-- A round that is played to its end, with some names settled before. -/
def Plays (x : Setting) (names settled : List Text) (round : Round) : Prop :=
  ∃ calls enabled, enabled.Nodup ∧
    Attempts x settled names (start calls enabled) round.attempts round.left

namespace Plays

variable {round : Round}

theorem attempted (h : Plays x names settled round) :
    round.attempted = names.filter (· ∉ settled) := by
  obtain ⟨calls, enabled, -, hattempts⟩ := h
  exact hattempts.map_name

theorem mem_handlerFailed (h : Plays x names settled round) (known : ∀ n ∈ names, x.catalog.has n)
    (nodup : names.Nodup) :
    n ∈ round.left.handlerFailed ↔ round.TurnedDown x.handler n := by
  obtain ⟨calls, enabled, -, hattempts⟩ := h
  rw [hattempts.mem_handlerFailed known nodup, Round.TurnedDown]
  simp [start]

theorem mem_failed (h : Plays x names settled round) (wf : x.catalog.WellFormed)
    (known : ∀ n ∈ names, x.catalog.has n) (hn : round.TurnedDown x.handler n) :
    n ∈ round.failed := by
  obtain ⟨calls, enabled, hnodup, hattempts⟩ := h
  obtain ⟨t, ht, rfl, hturned⟩ := hn
  exact Tally.mem_withOutcome.mpr (hattempts.failure_of_turnedDown wf known hnodup ht hturned)

theorem turns (h : Plays x names settled round) (wf : x.catalog.WellFormed)
    (known : ∀ n ∈ names, x.catalog.has n) :
    ∃ calls enabled, Turns x .enable settled names (start calls enabled) round.left := by
  obtain ⟨calls, enabled, hnodup, hattempts⟩ := h
  exact ⟨calls, enabled, hattempts.turns wf known hnodup⟩

theorem shares (h : Plays x names settled round) (wf : x.catalog.WellFormed)
    (known : ∀ n ∈ names, x.catalog.has n) :
    (round.succeeded ++ round.failed).Perm round.attempted := by
  obtain ⟨calls, enabled, hturns⟩ := h.turns wf known
  rw [h.attempted]
  exact (hturns.shares rfl).2.2

/-- Another round may help when all names are known, and the handler has turned down all that failed. -/
theorem retryable_iff (h : Plays x p.known settled round) (known : ∀ n ∈ p.known, x.catalog.has n)
    (nodup : p.known.Nodup) :
    retryable p round.left = true ↔ p.unknown = [] ∧ round.failed ≠ [] ∧
      ∀ n ∈ round.failed, round.TurnedDown x.handler n := by
  simp only [retryable, Bool.and_eq_true, List.isEmpty_iff, Bool.not_eq_true', List.all_eq_true,
    decide_eq_true_eq, h.mem_handlerFailed known nodup, and_assoc]
  exact and_congr_right fun _ => and_congr_left fun _ => by simp [Round.failed]

end Plays

/-! ### Rounds one after the other -/

/-- Rounds are played one after the other. Each of them starts from the calls and the attachment that the
one before has left, and passes over the names that have succeeded so far. -/
inductive Played (ctx : Context) (p : Partition) :
    Attachment → List Text → List Call → List Round → Attachment → List Call → Prop
  | nil {a : Attachment} {settled : List Text} {past : List Call} :
      Played ctx p a settled past [] a past
  | cons {a final : Attachment} {settled : List Text} {past past' : List Call} {round : Round}
      {rest : List Round}
      (attempts : Attempts (ctx.setting a true) settled p.known (start past a.enabled) round.attempts
        round.left)
      (behind : Played ctx p (a.after round.left) (settled ++ round.succeeded) round.left.calls rest
        final past') :
      Played ctx p a settled past (round :: rest) final past'

/-- Rounds end: every round but the last one is followed by another one since that may help, and after
the last one that would not help, or no more are allowed. -/
inductive Ends (p : Partition) : Nat → List Round → Prop
  | last {left : Nat} {round : Round} (stop : retryable p round.left = true → left = 0) :
      Ends p left [round]
  | more {left : Nat} {round : Round} {rest : List Round} (again : retryable p round.left = true)
      (behind : Ends p left rest) : Ends p (left + 1) (round :: rest)

/-- What runs is rounds, and they are those of the trail. -/
theorem played_of_rounds {limit : Number} (left : Nat) :
    ∀ (a : Attachment) (tally : Tally) (settled : List Text) (past past' : List Call)
      (r : Resolution), exec (rounds ctx p limit left a tally settled) past = (.ok r, past') →
      ∃ rounds final, r.next = some final ∧ Played ctx p a settled past rounds final past' ∧
        Ends p left rounds ∧ rounds.map (·.left) = trail ctx p left a settled past := by
  induction left using Nat.strong_induction_on with
  | _ left ih =>
    intro a tally settled past past' r h
    rcases rounds_cases limit left a tally settled past with ⟨f, done, -, hexec⟩ |
      ⟨done, hround, stop, hexec⟩ | ⟨done, behind, hround, again, rfl, hexec⟩
    all_goals rw [hexec] at h
    · cases h
    · obtain ⟨ts, hts⟩ := exec_enableUnsettled_eq_ok.mp hround
      cases h
      exact ⟨[⟨ts, done⟩], _, rfl, .cons hts .nil, .last stop, (trail_last hround stop).symm⟩
    · obtain ⟨ts, hts⟩ := exec_enableUnsettled_eq_ok.mp hround
      obtain ⟨rest, final, hnext, hplayed, hends, hmap⟩ :=
        ih behind behind.lt_succ_self _ _ _ _ past' r h
      refine ⟨⟨ts, done⟩ :: rest, final, hnext, .cons hts hplayed, .more again hends, ?_⟩
      rw [trail_more hround again, ← hmap, List.map_cons]

namespace Played

variable {rounds : List Round} {round next : Round}

theorem of_cons (h : Played ctx p a settled past (round :: rounds) final past') :
    AutoAttach.round ctx p a settled past = (.ok (), round.left) ∧
      Played ctx p (a.after round.left) (settled ++ round.succeeded) round.left.calls rounds final
        past' := by
  cases h with
  | cons attempts behind => exact ⟨exec_enableUnsettled_eq_ok.mpr ⟨_, attempts⟩, behind⟩

/-- Each round passes over what was settled at the start. -/
theorem plays (h : Played ctx p a settled past rounds final past') (wf : ctx.catalog.WellFormed)
    (known : ∀ n ∈ p.known, ctx.catalog.has n) (ha : a.enabled.Nodup) (hround : round ∈ rounds) :
    ∃ before, settled ⊆ before ∧ Plays (ctx.setting a true) p.known before round := by
  induction h with
  | nil => cases hround
  | @cons a _ settled past _ first _ attempts _ ih =>
    rcases List.mem_cons.mp hround with rfl | hround
    · exact ⟨settled, List.Subset.refl _, past, a.enabled, ha, attempts⟩
    · obtain ⟨before, hsub, hplays⟩ := ih (attempts.nodup wf known ha) hround
      exact ⟨before, fun n hn => hsub (List.mem_append_left _ hn), hplays⟩

/-- The next round passes over what the one before has settled, besides what that one has passed over. -/
theorem consecutive (h : Played ctx p a settled past rounds final past') (wf : ctx.catalog.WellFormed)
    (known : ∀ n ∈ p.known, ctx.catalog.has n) (ha : a.enabled.Nodup) {i : Nat}
    (hi : rounds[i]? = some round) (hnext : rounds[i + 1]? = some next) :
    ∃ before, Plays (ctx.setting a true) p.known before round ∧
      Plays (ctx.setting a true) p.known (before ++ round.succeeded) next := by
  induction h generalizing i with
  | nil => cases hi
  | @cons a _ settled past _ first _ attempts behind ih =>
    have hnodup : first.left.enabled.Nodup := attempts.nodup wf known ha
    cases i with
    | zero =>
      obtain rfl : first = round := Option.some.inj hi
      cases behind with
      | nil => cases hnext
      | cons attempts' =>
        obtain rfl : _ = next := Option.some.inj hnext
        exact ⟨settled, ⟨past, a.enabled, ha, attempts⟩, _, _, hnodup, attempts'⟩
    | succ i => exact ih hnodup (by simpa using hi) (by simpa using hnext)

/-- What is attempted in a next round is what has failed before. -/
theorem mem_attempted_iff (h : Played ctx p a settled past rounds final past')
    (wf : ctx.catalog.WellFormed) (known : ∀ n ∈ p.known, ctx.catalog.has n) (nodup : p.known.Nodup)
    (ha : a.enabled.Nodup) {i : Nat} (hi : rounds[i]? = some round)
    (hnext : rounds[i + 1]? = some next) : n ∈ next.attempted ↔ n ∈ round.failed := by
  obtain ⟨before, hplays, hplays'⟩ := h.consecutive wf known ha hi hnext
  have hperm := hplays.shares wf known
  have hmem : n ∈ round.attempted ↔ n ∈ round.succeeded ∨ n ∈ round.failed := by
    rw [← hperm.mem_iff, List.mem_append]
  have hdisjoint : n ∈ round.succeeded → n ∉ round.failed := by
    apply List.disjoint_of_nodup_append
    rw [hperm.nodup_iff, hplays.attempted]
    exact nodup.filter _
  rw [hplays.attempted, List.mem_filter, decide_eq_true_eq] at hmem
  rw [hplays'.attempted, List.mem_filter, decide_eq_true_eq, List.mem_append]
  tauto

theorem calls (h : Played ctx p a settled past rounds final past')
    (known : ∀ n ∈ p.known, ctx.catalog.has n) : past <+: past' := by
  induction h with
  | nil => exact List.prefix_refl _
  | cons attempts _ ih => exact (attempts.grows known).calls.trans ih

end Played

namespace Ends

variable {rounds : List Round} {round last : Round}

theorem ne_nil (h : Ends p left rounds) : rounds ≠ [] := by
  cases h <;> exact List.cons_ne_nil _ _

theorem length_le (h : Ends p left rounds) : rounds.length ≤ left + 1 := by
  induction h with
  | last => exact Nat.le_add_left _ _
  | more _ _ ih => exact Nat.succ_le_succ ih

/-- A round is followed by another one exactly when that may help and is allowed. -/
theorem followed_iff (h : Ends p left rounds) {i : Nat} (hi : rounds[i]? = some round) :
    (∃ next, rounds[i + 1]? = some next) ↔ i < left ∧ retryable p round.left = true := by
  induction h generalizing i with
  | last stop =>
    cases i with
    | zero =>
      obtain rfl : _ = round := Option.some.inj hi
      refine iff_of_false (by simp) ?_
      rintro ⟨hleft, hretry⟩
      exact absurd (stop hretry) (Nat.ne_of_gt hleft)
    | succ i => simp at hi
  | more again behind ih =>
    cases i with
    | zero =>
      obtain rfl : _ = round := Option.some.inj hi
      obtain ⟨next, rest, rfl⟩ := List.exists_cons_of_ne_nil behind.ne_nil
      simpa using again
    | succ i => simpa using ih (by simpa using hi)

end Ends

/-- The report tells all that has succeeded, and of what has failed that of the last round, with the errors
that follow it. -/
theorem Finishes.report_eq {limit : Number} {tally : Tally} {trail : List Progress} {r : Resolution}
    (h : Finishes ctx p limit a tally settled trail r) (handed : Handed tally settled) :
    r.report.processed = settled ++ trail.flatMap (·.tally.withOutcome .success) ∧
      ∃ last, trail.getLast? = some last ∧ r.report.failed = last.tally.withOutcome .failure ∧
        r.report.errors = last.tally.errors ++ (closingErrors p limit last).map .ofSystem := by
  induction h with
  | @last a tally _ _ done =>
    obtain ⟨hprocessed, hfailed, herrors⟩ := @report_conclude p limit a tally done
    rw [handed.settled] at hprocessed
    rw [handed.failed, List.nil_append] at hfailed
    rw [handed.errors, List.nil_append] at herrors
    exact ⟨by simpa using hprocessed, done, rfl, hfailed, herrors⟩
  | more _ behind ih =>
    obtain ⟨hprocessed, last, hlast, hrest⟩ := ih (handed.absorb _)
    refine ⟨?_, last, ?_, hrest⟩
    · rw [hprocessed, List.flatMap_cons, List.append_assoc]
    · rw [List.getLast?_cons, hlast]
      rfl

/-! ### The rounds of an instance -/

variable {opts : AutoAttachOptions} {token : InstanceToken} {contract : Contract}

/-- What is done for an instance that has arrived comprises some rounds. They lead from the calls made up
to then, and an attachment with nothing enabled, to the calls and the attachment in the end. All that they
have settled is reported as processed; what has failed is reported as the last one has left it. -/
structure Comprises (ctx : Context) (opts : AutoAttachOptions) (token : InstanceToken)
    (contract : Contract) (past : List Call) (rounds : List Round) (r : Resolution)
    (past' : List Call) : Prop where
  played : ∃ final, r.next = some final ∧ Played ctx (ctx.catalog.partition true opts.names)
    (ctx.freshAttachment contract token.token (some token.instanceId)) [] past rounds final past'
  processed : r.report.processed = rounds.flatMap (·.succeeded)
  last : ∃ last, rounds.getLast? = some last ∧ r.report.failed = last.failed ∧
    r.report.errors = last.left.tally.errors ++ (closingErrors
      (ctx.catalog.partition true opts.names) (limit opts.retries) last.left).map .ofSystem

theorem known_of_partition : ∀ n ∈ (ctx.catalog.partition true opts.names).known, ctx.catalog.has n := by
  rw [known_partition]
  exact fun n hn => (List.mem_filter.mp hn).2

/-- When an instance has arrived, what the operation does from then on comprises rounds, and no others than
those it is said to have. -/
theorem comprises_of_arrived {document : Json} {contracts : Text → Except Fault (Option Contract)}
    {arrival : Arrival} {past₁ : List Call}
    (accepted : Catalog.ofDocument document = .ok ctx.catalog)
    (arrived : exec (arrive ctx (some token)) past = (.ok (.inr arrival), past₁))
    (found : contracts token.token = .ok (some contract))
    (named : opts.enable ++ opts.enableBeta ≠ [])
    (released : ∀ n ∈ opts.enable, ∀ s, ctx.catalog.find? n = some s → s.isBeta = false)
    {r : Resolution}
    (h : exec (resolveAutoAttach ctx opts (some token) contracts) past = (.ok r, past')) :
    ∃ rounds, Comprises ctx opts token contract past₁ rounds r past' ∧
      Ends (ctx.catalog.partition true opts.names) (roundCount (limit opts.retries) - 1) rounds ∧
      rounds.map (·.left) = roundsOf ctx opts token contract past := by
  have wf := Catalog.wellFormed_of_ofDocument accepted
  obtain ⟨-, handed⟩ := yields_arrive past (.inr arrival) past₁ arrived
  rw [exec_of_arrived arrived found named released] at h
  obtain ⟨rounds, final, hnext, hplayed, hends, hmap⟩ := played_of_rounds _ _ _ _ _ _ _ h
  obtain ⟨hprocessed, last, hlast, hfailed, herrors⟩ := Finishes.report_eq
    (finishes_rounds wf known_of_partition _ _ _ _ _ _ r List.nodup_nil h) handed
  rw [← hmap, List.nil_append, List.flatMap_map] at hprocessed
  rw [← hmap, List.getLast?_map] at hlast
  obtain ⟨round, hround, rfl⟩ := Option.map_eq_some_iff.mp hlast
  refine ⟨rounds, ⟨⟨final, hnext, hplayed⟩, hprocessed, round, hround, hfailed, herrors⟩, hends, ?_⟩
  rw [hmap, roundsOf_of_arrived arrived]

end AutoAttach

end Subscription
