import Subscription.Proofs.Executor.Records
import Subscription.Proofs.Resolution.Faults

/-!
How attaching an instance reports its services. What the rounds settle is reported in the order of the
rounds, and within a round in the order of the request; what fails in the last round stands in the order
of the request. So every known name is reported once, as processed or as failed. The processed ones are
in the order of the request exactly when no round settles a name that stands before one of an earlier
round.
-/

namespace Subscription

open Executor Catalog

/-- Some names follow the order of a list without repeats when any two of them do. -/
theorem sublist_iff_pairwise {names l : List Text} (nodup : names.Nodup) :
    l.Sublist names ↔ l ⊆ names ∧ l.Pairwise fun a b => [a, b].Sublist names := by
  constructor
  · intro h
    exact ⟨h.subset, List.pairwise_iff_forall_sublist.mpr fun hab => hab.trans h⟩
  · rintro ⟨hsub, hpair⟩
    induction names generalizing l with
    | nil => simp [List.subset_nil.mp hsub]
    | cons n names ih =>
      obtain ⟨hn, hnodup⟩ := List.nodup_cons.mp nodup
      have hbehind : ∀ {a b}, [a, b].Sublist (n :: names) → b ∈ names := by
        intro a b hab
        cases hab with
        | cons _ hab => exact hab.subset (by simp)
        | cons_cons _ hb => exact hb.subset (by simp)
      have htail : ∀ {a b}, a ≠ n → [a, b].Sublist (n :: names) → [a, b].Sublist names := by
        intro a b ha hab
        cases hab with
        | cons _ hab => exact hab
        | cons_cons => exact absurd rfl ha
      cases l with
      | nil => exact List.nil_sublist _
      | cons m l =>
        obtain ⟨hm, hl⟩ := List.pairwise_cons.mp hpair
        have hrest : l ⊆ names := fun k hk => hbehind (hm k hk)
        have hl' : l.Pairwise fun a b => [a, b].Sublist names :=
          hl.imp_of_mem fun ha _ hab => htail (fun e => hn (e ▸ hrest ha)) hab
        by_cases hmn : m = n
        · subst hmn
          exact (ih hnodup hrest hl').cons_cons m
        · have hm' : m ∈ names := (List.mem_cons.mp (hsub List.mem_cons_self)).resolve_left hmn
          apply (ih hnodup (List.cons_subset.mpr ⟨hm', hrest⟩) _).cons n
          exact List.pairwise_cons.mpr ⟨fun k hk => htail hmn (hm k hk), hl'⟩

namespace Executor.Turns

variable {x : Setting} {action : ServiceAction} {settled names : List Text} {p q : Progress}

/-- The successes and the failures of a session are each in the order of the names, and share out the
names that have their turn. -/
theorem shares (h : Turns x action settled names p q) (hp : p.tally.outcomes = []) :
    (q.tally.withOutcome .success).Sublist names ∧ (q.tally.withOutcome .failure).Sublist names ∧
      (q.tally.withOutcome .success ++ q.tally.withOutcome .failure).Perm
        (names.filter (· ∉ settled)) := by
  obtain ⟨os, houtcomes, hnames, hskipped, -⟩ := h.record
  rw [hp, List.nil_append] at houtcomes
  have hsublist : ∀ o, (q.tally.withOutcome o).Sublist names := by
    intro o
    rw [Tally.withOutcome, houtcomes, ← hnames]
    exact List.filter_sublist.map _
  refine ⟨hsublist .success, hsublist .failure, ?_⟩
  have hturns : names.filter (· ∉ settled) = (os.filter (·.2 ≠ .skipped)).map (·.1) := by
    rw [← hnames, List.filter_map]
    refine congrArg _ (List.filter_congr fun o ho => ?_)
    simp [← hskipped o ho]
  rw [hturns, Tally.withOutcome, Tally.withOutcome, houtcomes]
  exact Tally.perm_outcomes os

end Executor.Turns

namespace AutoAttach

variable {ctx : Context} {p : Partition}

/-- What a report on some rounds says of their names: first what was settled before, then what each round
has settled; and every name once. -/
structure Reports (names settled : List Text) (rounds : List Progress) (r : Report) : Prop where
  processed : r.processed = settled ++ rounds.flatMap (·.tally.withOutcome .success)
  settles : ∀ done ∈ rounds, (done.tally.withOutcome .success).Sublist names
  failed : r.failed.Sublist names
  shares : (r.processed ++ r.failed).Perm names

/-- What is settled and what a round has dealt with make up all the names. -/
theorem perm_of_turns {x : Setting} {settled names : List Text} {p q : Progress}
    (nodup : names.Nodup) (hsettled : settled.Nodup) (hsub : settled ⊆ names)
    (h : Turns x .enable settled names p q) (hp : p.tally.outcomes = []) :
    (settled ++ q.tally.withOutcome .success ++ q.tally.withOutcome .failure).Perm names := by
  have hold : settled.Perm (names.filter (· ∈ settled)) := by
    apply (List.perm_ext_iff_of_nodup hsettled (nodup.filter _)).mpr
    intro n
    simpa using fun hn => hsub hn
  have hnew := (h.shares hp).2.2
  have hall := List.filter_append_perm (fun n => decide (n ∈ settled)) names
  rw [List.append_assoc]
  refine (hold.append hnew).trans ?_
  simpa using hall

theorem reports_last {a : Attachment} {tally : Tally} {settled : List Text} {past : List Call}
    {done : Progress} {limit : Number} (nodup : p.known.Nodup) (handed : Handed tally settled)
    (hsettled : settled.Nodup) (hsub : settled ⊆ p.known)
    (h : Turns (ctx.setting a true) .enable settled p.known (start past a.enabled) done) :
    Reports p.known settled [done] (conclude p limit a tally done).report := by
  obtain ⟨hsuccess, hfailure, -⟩ := h.shares rfl
  obtain ⟨hprocessed, hfailed, -⟩ := @report_conclude p limit a tally done
  rw [handed.settled] at hprocessed
  rw [handed.failed, List.nil_append] at hfailed
  refine ⟨by simpa using hprocessed, by simpa using hsuccess, hfailed ▸ hfailure, ?_⟩
  rw [hprocessed, hfailed]
  exact perm_of_turns nodup hsettled hsub h rfl

theorem Reports.cons {names settled : List Text} {done : Progress} {rest : List Progress} {r : Report}
    (hdone : (done.tally.withOutcome .success).Sublist names)
    (h : Reports names (settled ++ done.tally.withOutcome .success) rest r) :
    Reports names settled (done :: rest) r where
  processed := by rw [h.processed, List.flatMap_cons, List.append_assoc]
  settles := List.forall_mem_cons.mpr ⟨hdone, h.settles⟩
  failed := h.failed
  shares := h.shares

/-- Rounds that come to their end report each of their names once. -/
theorem Finishes.reports {limit : Number} {a : Attachment} {tally : Tally} {settled : List Text}
    {rounds : List Progress} {r : Resolution} (h : Finishes ctx p limit a tally settled rounds r)
    (nodup : p.known.Nodup) (handed : Handed tally settled) (hsettled : settled.Nodup)
    (hsub : settled ⊆ p.known) : Reports p.known settled rounds r.report := by
  induction h with
  | last turns => exact reports_last nodup handed hsettled hsub turns
  | more turns _ ih =>
    -- The names that are settled now are some of those that the round has dealt with.
    have hperm := perm_of_turns nodup hsettled hsub turns rfl
    apply Reports.cons (turns.shares rfl).1
    apply ih (handed.absorb _)
    · exact (hperm.nodup_iff.mpr nodup).of_append_left
    · exact fun n hn => hperm.subset (List.mem_append_left _ hn)

end AutoAttach

variable {document : Json} {ctx : Context} {token : InstanceToken} {contract : Contract}
  {opts : AutoAttachOptions} {contracts : Text → Except Fault (Option Contract)}

/-! ### The whole operation -/

namespace AutoAttach

variable {arrival : Arrival} {past past₁ : List Call}

/-- What remains to be done when an instance has arrived, with services to enable and none of them in
beta without leave. -/
theorem exec_of_arrived (arrived : exec (arrive ctx (some token)) past = (.ok (.inr arrival), past₁))
    (found : contracts token.token = .ok (some contract))
    (named : opts.enable ++ opts.enableBeta ≠ [])
    (released : ∀ n ∈ opts.enable, ∀ s, ctx.catalog.find? n = some s → s.isBeta = false) :
    exec (resolveAutoAttach ctx opts (some token) contracts) past =
      exec (rounds ctx (ctx.catalog.partition true opts.names) (limit opts.retries)
        (roundCount (limit opts.retries) - 1)
        (ctx.freshAttachment contract token.token (some token.instanceId)) arrival.tally []) past₁ := by
  obtain ⟨rfl, -⟩ := yields_arrive past (.inr arrival) past₁ arrived
  rw [resolveAutoAttach, exec_bind, arrived]
  simp only [exec_bind, found, exec_liftExcept, enrol_eq_rounds arrival named released]

theorem roundsOf_of_arrived
    (arrived : exec (arrive ctx (some token)) past = (.ok (.inr arrival), past₁)) :
    roundsOf ctx opts token contract past = trail ctx (ctx.catalog.partition true opts.names)
      (roundCount (limit opts.retries) - 1)
      (ctx.freshAttachment contract token.token (some token.instanceId)) [] past₁ := by
  rw [roundsOf, arrived]

end AutoAttach

theorem known_partition (c : Catalog) (names : List Text) :
    (c.partition true names).known = names.filter c.has := by
  refine List.filter_congr fun n _ => ?_
  cases h : c.find? n <;> simp [knows, has, h]

open AutoAttach in
/-- When an instance comes to its rounds, every known name that was asked for is reported once, as
processed or as failed, and the failures are in the order of the request. The processed names are exactly
when no round settles a name that stands before one that an earlier round has settled. -/
theorem autoAttach_reports_in_order_iff (accepted : ofDocument document = .ok ctx.catalog)
    {arrival : Arrival} {past past₁ : List Call}
    (arrived : exec (arrive ctx (some token)) past = (.ok (.inr arrival), past₁))
    (found : contracts token.token = .ok (some contract))
    (named : opts.enable ++ opts.enableBeta ≠ [])
    (released : ∀ n ∈ opts.enable, ∀ s, ctx.catalog.find? n = some s → s.isBeta = false) :
    (ctx.handler.Answers → ∃ r past',
      exec (resolveAutoAttach ctx opts (some token) contracts) past = (.ok r, past')) ∧
    ∀ r past', exec (resolveAutoAttach ctx opts (some token) contracts) past = (.ok r, past') →
      (r.report.processed ++ r.report.failed).Perm (opts.names.filter ctx.catalog.has) ∧
      r.report.processed.Disjoint r.report.failed ∧ r.report.failed.Sublist opts.names ∧
      (r.report.processed.Sublist opts.names ↔
        (roundsOf ctx opts token contract past).Pairwise fun earlier later =>
          ∀ m ∈ earlier.tally.withOutcome .success, ∀ n ∈ later.tally.withOutcome .success,
            [m, n].Sublist opts.names) := by
  have wf := wellFormed_of_ofDocument accepted
  obtain ⟨-, handed⟩ := yields_arrive past (.inr arrival) past₁ arrived
  have known : ∀ n ∈ (ctx.catalog.partition true opts.names).known, ctx.catalog.has n := by
    rw [known_partition]
    exact fun n hn => (List.mem_filter.mp hn).2
  rw [exec_of_arrived arrived found named released, roundsOf_of_arrived arrived]
  refine ⟨fun answers => ?_, fun r past' h => ?_⟩
  · exact exec_of_throws (throws_rounds wf known _ _ _ _ _) answers.not_raises past₁
  · have hnames : opts.names.Nodup := nodup_dedupe _
    have hsub : (opts.names.filter ctx.catalog.has).Sublist opts.names := List.filter_sublist
    have hreports := (finishes_rounds wf known _ _ _ _ _ _ r List.nodup_nil h).reports
      (known_partition ctx.catalog _ ▸ hnames.filter _) handed List.nodup_nil (List.nil_subset _)
    rw [known_partition] at hreports
    refine ⟨hreports.shares, ?_, hreports.failed.trans hsub, ?_⟩
    · exact List.disjoint_of_nodup_append (hreports.shares.nodup_iff.mpr (hnames.filter _))
    · have hsubset : r.report.processed ⊆ opts.names := fun n hn =>
        hsub.subset (hreports.shares.subset (List.mem_append_left _ hn))
      rw [sublist_iff_pairwise hnames, and_iff_right hsubset, hreports.processed,
        List.nil_append, List.pairwise_flatMap, and_iff_right]
      -- Within a round the names are in order in any case.
      intro done hdone
      exact ((sublist_iff_pairwise hnames).mp ((hreports.settles done hdone).trans hsub)).2

/-- A machine without a subscription, whose handler does not manage to enable `a` at once. -/
def stumbleContext : Context :=
  { hiccupContext with
    handler := .scripted fun action n =>
      if action = .enable ∧ n = "a" then [.failed "no" "no"] else [] }

theorem answers_stumble : stumbleContext.handler.Answers := by
  dsimp only [stumbleContext]
  apply Handler.answers_scripted
  intro action n text
  split <;> simp

def stumbleOptions : AutoAttachOptions :=
  ⟨["a", "b"], [], none⟩

theorem autoAttach_reports_in_order_iff_stumble :
    (stumbleContext.handler.Answers → ∃ r past',
      exec (resolveAutoAttach stumbleContext stumbleOptions (some ⟨"i", "t"⟩)
        fun _ => .ok (some ⟨"k", ["a", "b"]⟩)) [] = (.ok r, past')) ∧
    ∀ r past', exec (resolveAutoAttach stumbleContext stumbleOptions (some ⟨"i", "t"⟩)
        fun _ => .ok (some ⟨"k", ["a", "b"]⟩)) [] = (.ok r, past') →
      (r.report.processed ++ r.report.failed).Perm (stumbleOptions.names.filter pair.has) ∧
      r.report.processed.Disjoint r.report.failed ∧
      r.report.failed.Sublist stumbleOptions.names ∧
      (r.report.processed.Sublist stumbleOptions.names ↔
        (AutoAttach.roundsOf stumbleContext stumbleOptions ⟨"i", "t"⟩ ⟨"k", ["a", "b"]⟩
          []).Pairwise fun earlier later =>
          ∀ m ∈ earlier.tally.withOutcome .success, ∀ n ∈ later.tally.withOutcome .success,
            [m, n].Sublist stumbleOptions.names) :=
  autoAttach_reports_in_order_iff ofDocument_pair rfl rfl (by decide) (by decide)

open AutoAttach in
/-- With `a` before `b`, the first round settles `b` and only the second one `a`. -/
theorem autoAttach_reorders_stumble :
    ¬∀ (document : Json) (ctx : Context) (opts : AutoAttachOptions) (token : InstanceToken)
        (contract : Contract) (contracts : Text → Except Fault (Option Contract))
        (arrival : Arrival) (past past₁ : List Call) (k : Int),
      ofDocument document = .ok ctx.catalog → ctx.handler.Answers →
      (opts.retries.getD 3).toInt? = some k →
      exec (arrive ctx (some token)) past = (.ok (.inr arrival), past₁) →
      contracts token.token = .ok (some contract) → opts.enable ++ opts.enableBeta ≠ [] →
      (∀ n ∈ opts.enable, ∀ s, ctx.catalog.find? n = some s → s.isBeta = false) →
      ∃ r past', exec (resolveAutoAttach ctx opts (some token) contracts) past = (.ok r, past') ∧
        r.report.processed.Disjoint r.report.failed ∧
        (r.report.processed ++ r.report.failed).Perm (opts.names.filter ctx.catalog.has) ∧
        r.report.processed.Sublist opts.names ∧ r.report.failed.Sublist opts.names := by
  intro h
  have hthree : (Number.toInt? 3) = some 3 := by decide +kernel
  obtain ⟨r, past', hexec, -, -, hsub, -⟩ := h pairDocument stumbleContext stumbleOptions
    ⟨"i", "t"⟩ ⟨"k", ["a", "b"]⟩ (fun _ => .ok (some ⟨"k", ["a", "b"]⟩)) _ [] _ 3 ofDocument_pair
    answers_stumble hthree rfl rfl (by decide) (by decide)
  have hprocessed : (exec (resolveAutoAttach stumbleContext stumbleOptions
      (some ⟨"i", "t"⟩) fun _ => .ok (some ⟨"k", ["a", "b"]⟩)) []).1.toOption.map
        (fun r : Resolution => r.report.processed) = (some ["b", "a"] : Option (List Text)) := by
    decide +kernel
  rw [hexec] at hprocessed
  rw [show r.report.processed = ["b", "a"] from Option.some.inj hprocessed] at hsub
  revert hsub
  decide

end Subscription
