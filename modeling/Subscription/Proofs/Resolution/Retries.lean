import Subscription.Proofs.Resolution.Calls
import Subscription.Proofs.Resolution.Termination

/-!
What is tried again when services are enabled on an instance, and when that is given up. A name that the
handler has turned down is attempted in the next round only if every other failure of the round is of this
kind too and no name is unknown: a single check that fails ends the rounds for all. The number of rounds
is bounded, and the error that says that they were not enough is there exactly when all rounds were played
and the last one leaves nothing but failures of the handler.
-/

namespace Subscription

open Executor Catalog

variable {document : Json} {ctx : Context} {token : InstanceToken} {contract : Contract}
  {opts : AutoAttachOptions} {contracts : Text → Except Fault (Option Contract)}

namespace AutoAttach

variable {p : Partition} {arrival : Arrival} {past past' past₁ : List Call} {k : Int}

/-! ### The calls of the rounds -/

def Makes {α : Type} (r : Resolving α) (P : Call → Prop) : Prop :=
  ∀ past, ∃ made, (exec r past).2 = past ++ made ∧ ∀ call ∈ made, P call

section Makes

variable {α β : Type} {r : Resolving α} {f : α → Resolving β} {P : Call → Prop}

end Makes

theorem nodup_known_partition : (ctx.catalog.partition true opts.names).known.Nodup := by
  rw [known_partition]
  exact (nodup_dedupe _).filter _

theorem unknown_partition_eq_nil_iff :
    (ctx.catalog.partition true opts.names).unknown = [] ↔ ∀ n ∈ opts.names, ctx.catalog.has n := by
  have hknows : ∀ n, ctx.catalog.knows true n = true ↔ ctx.catalog.has n := by
    intro n
    cases h : ctx.catalog.find? n <;> simp [knows, has, h]
  simp [partition, List.filter_eq_nil_iff, hknows]

end AutoAttach

open AutoAttach in
/-- When an instance comes to its rounds, a name that the handler has turned down in a round that is not
the last one allowed is attempted in a next round exactly when all names that were asked for are known and
all that failed in the round was turned down by the handler. In a next round nothing else is attempted. -/
theorem autoAttach_retries_iff (accepted : ofDocument document = .ok ctx.catalog)
    {arrival : Arrival} {past past₁ : List Call} {k : Int}
    (arrived : exec (arrive ctx (some token)) past = (.ok (.inr arrival), past₁))
    (found : contracts token.token = .ok (some contract))
    (named : opts.enable ++ opts.enableBeta ≠ [])
    (released : ∀ n ∈ opts.enable, ∀ s, ctx.catalog.find? n = some s → s.isBeta = false)
    (integer : (opts.retries.getD 3).toInt? = some k) :
    (ctx.handler.Answers → ∃ r past',
      exec (resolveAutoAttach ctx opts (some token) contracts) past = (.ok r, past')) ∧
    ∀ r past', exec (resolveAutoAttach ctx opts (some token) contracts) past = (.ok r, past') →
      ∃ rounds, Comprises ctx opts token contract past₁ rounds r past' ∧
        ∀ i round, rounds[i]? = some round →
          (i + 1 < max 1 k.toNat → ∀ n, round.TurnedDown ctx.handler n →
            ((∃ next, rounds[i + 1]? = some next ∧ n ∈ next.attempted) ↔
              (∀ m ∈ opts.names, ctx.catalog.has m) ∧
                ∀ m ∈ round.failed, round.TurnedDown ctx.handler m)) ∧
          ∀ next, rounds[i + 1]? = some next →
            ∀ n ∈ next.attempted, round.TurnedDown ctx.handler n := by
  have wf := wellFormed_of_ofDocument accepted
  refine ⟨fun answers => ?_, fun r past' h => ?_⟩
  · rw [exec_of_arrived arrived found named released]
    exact exec_of_throws (throws_rounds wf known_of_partition _ _ _ _ _) answers.not_raises past₁
  · obtain ⟨rounds, hcomprises, hends, -⟩ := comprises_of_arrived accepted arrived found named released h
    obtain ⟨final, -, hplayed⟩ := hcomprises.played
    refine ⟨rounds, hcomprises, fun i round hi => ?_⟩
    have hfollowed := hends.followed_iff hi
    obtain ⟨before, -, hplays⟩ :=
      hplayed.plays wf known_of_partition List.nodup_nil (List.mem_of_getElem? hi)
    have hretry := hplays.retryable_iff known_of_partition nodup_known_partition
    rw [unknown_partition_eq_nil_iff] at hretry
    have hattempted : ∀ next, rounds[i + 1]? = some next →
        ∀ n, n ∈ next.attempted ↔ n ∈ round.failed := fun next hnext n =>
      hplayed.mem_attempted_iff wf known_of_partition nodup_known_partition List.nodup_nil hi hnext
    refine ⟨fun hlimit n hn => ⟨?_, ?_⟩, fun next hnext n hn => ?_⟩
    · rintro ⟨next, hnext, -⟩
      obtain ⟨hknown, -, hturned⟩ := hretry.mp (hfollowed.mp ⟨next, hnext⟩).2
      exact ⟨hknown, hturned⟩
    · rintro ⟨hknown, hturned⟩
      have hfailed := hplays.mem_failed wf known_of_partition hn
      have hmore : i < roundCount (limit opts.retries) - 1 := by
        rw [roundCount_limit integer]
        omega
      obtain ⟨next, hnext⟩ := hfollowed.mpr
        ⟨hmore, hretry.mpr ⟨hknown, List.ne_nil_of_mem hfailed, hturned⟩⟩
      exact ⟨next, hnext, (hattempted next hnext n).mpr hfailed⟩
    · obtain ⟨-, -, hturned⟩ := hretry.mp (hfollowed.mp ⟨next, hnext⟩).2
      exact hturned n ((hattempted next hnext n).mp hn)

def refusalOptions : AutoAttachOptions :=
  ⟨["b", "a"], [], none⟩

/-- The contract grants `b` only, which the handler does not manage to enable at once. -/
def refusalContract : Contract :=
  ⟨"k", ["b"]⟩

theorem autoAttach_retries_iff_refusal :
    (hiccupContext.handler.Answers → ∃ r past',
      exec (resolveAutoAttach hiccupContext refusalOptions (some ⟨"i", "t"⟩)
        fun _ => .ok (some refusalContract)) [] = (.ok r, past')) ∧
    ∀ r past', exec (resolveAutoAttach hiccupContext refusalOptions (some ⟨"i", "t"⟩)
        fun _ => .ok (some refusalContract)) [] = (.ok r, past') →
      ∃ rounds, AutoAttach.Comprises hiccupContext refusalOptions ⟨"i", "t"⟩ refusalContract [] rounds
          r past' ∧
        ∀ i round, rounds[i]? = some round →
          (i + 1 < max 1 (3 : Int).toNat → ∀ n, round.TurnedDown hiccupContext.handler n →
            ((∃ next, rounds[i + 1]? = some next ∧ n ∈ next.attempted) ↔
              (∀ m ∈ refusalOptions.names, pair.has m) ∧
                ∀ m ∈ round.failed, round.TurnedDown hiccupContext.handler m)) ∧
          ∀ next, rounds[i + 1]? = some next →
            ∀ n ∈ next.attempted, round.TurnedDown hiccupContext.handler n :=
  autoAttach_retries_iff ofDocument_pair rfl rfl (by decide) (by decide) (by decide +kernel)

/-- What the first round leaves when both services are asked for and `b` is turned down. -/
def refusedOnce : Progress :=
  (AutoAttach.round hiccupContext (pair.partition true refusalOptions.names)
    (hiccupContext.freshAttachment refusalContract "t" (some "i")) [] []).2

theorem outcome_refusal :
    ∃ r past', exec (resolveAutoAttach hiccupContext refusalOptions (some ⟨"i", "t"⟩)
        fun _ => .ok (some refusalContract)) [] = (.ok r, past') ∧
      past'.map (fun call => (call.action, call.service.name)) =
        ([(.enable, "b")] : List (ServiceAction × Text)) ∧
      hiccupContext.handler.TurnsDown [] past' ∧ r.report.failed = ["b", "a"] ∧
      (r.attachment .unattached).enabled = [] := by
  generalize hrun : exec (resolveAutoAttach hiccupContext refusalOptions (some ⟨"i", "t"⟩)
    fun _ => .ok (some refusalContract)) [] = run
  have hcalls : run.2.map (fun call => (call.action, call.service.name)) =
      ([(.enable, "b")] : List (ServiceAction × Text)) := by
    rw [← hrun]
    decide +kernel
  have hturned : hiccupContext.handler.TurnsDown [] run.2 := by
    rw [← hrun, Handler.TurnsDown]
    decide +kernel
  have hleft : run.1.toOption.map (fun r : Resolution =>
      (r.report.failed, (r.attachment .unattached).enabled)) =
      (some (["b", "a"], []) : Option (List Text × List Text)) := by
    rw [← hrun]
    decide +kernel
  rcases run with ⟨f | r, past'⟩
  · cases hleft
  · obtain ⟨hfailed, henabled⟩ := Prod.mk.inj (Option.some.inj hleft)
    exact ⟨r, past', rfl, hcalls, hturned, hfailed, henabled⟩

open AutoAttach in
/-- With three rounds allowed, the handler is called once, for `b`, and turns that down. Since `a` is not
granted there is no second round; both are reported as failed, and nothing is enabled. So it is not true
that a name which the handler has turned down is attempted in the next round if there may be one. -/
theorem autoAttach_abandons_refusal :
    (∃ r past', exec (resolveAutoAttach hiccupContext refusalOptions (some ⟨"i", "t"⟩)
        fun _ => .ok (some refusalContract)) [] = (.ok r, past') ∧
      past'.map (fun call => (call.action, call.service.name)) =
        ([(.enable, "b")] : List (ServiceAction × Text)) ∧
      hiccupContext.handler.TurnsDown [] past' ∧ r.report.failed = ["b", "a"] ∧
      (r.attachment .unattached).enabled = []) ∧
    ¬∀ (document : Json) (ctx : Context) (opts : AutoAttachOptions) (token : InstanceToken)
        (contract : Contract) (contracts : Text → Except Fault (Option Contract))
        (arrival : Arrival) (past past₁ : List Call) (k : Int),
      ofDocument document = .ok ctx.catalog → ctx.handler.Answers →
      (opts.retries.getD 3).toInt? = some k →
      exec (arrive ctx (some token)) past = (.ok (.inr arrival), past₁) →
      contracts token.token = .ok (some contract) → opts.enable ++ opts.enableBeta ≠ [] →
      (∀ n ∈ opts.enable, ∀ s, ctx.catalog.find? n = some s → s.isBeta = false) →
      ∃ r past' rounds, exec (resolveAutoAttach ctx opts (some token) contracts) past = (.ok r, past') ∧
        Comprises ctx opts token contract past₁ rounds r past' ∧
        ∀ i round, rounds[i]? = some round → i + 1 < max 1 k.toNat →
          ∀ n ∈ opts.names, ctx.catalog.has n → round.TurnedDown ctx.handler n →
            n ∉ round.left.enabled →
            ∃ next, rounds[i + 1]? = some next ∧ n ∈ next.attempted := by
  refine ⟨outcome_refusal, fun h => ?_⟩
  obtain ⟨r, past', rounds, hexec, hcomprises, hagain⟩ := h pairDocument hiccupContext
    refusalOptions ⟨"i", "t"⟩ refusalContract (fun _ => .ok (some refusalContract)) _ [] [] 3
    ofDocument_pair answers_hiccup (by decide +kernel) rfl rfl (by decide) (by decide)
  obtain ⟨_, _, hexec', hcalls, -⟩ := outcome_refusal
  cases hexec.symm.trans hexec'
  have hone : past'.length = 1 := by simpa using congrArg List.length hcalls
  obtain ⟨final, -, hplayed⟩ := hcomprises.played
  obtain ⟨last, hlast, -⟩ := hcomprises.last
  obtain ⟨⟨ts, first⟩, rest, rfl⟩ :=
    List.exists_cons_of_ne_nil (List.ne_nil_of_mem (List.mem_of_getLast? hlast))
  obtain ⟨before, -, hplays⟩ := hplayed.plays (wellFormed_of_ofDocument ofDocument_pair)
    known_of_partition List.nodup_nil List.mem_cons_self
  obtain ⟨hround, hbehind⟩ := hplayed.of_cons
  obtain rfl : refusedOnce = first := congrArg Prod.snd hround
  have hturned : ("b" : Text) ∈ refusedOnce.handlerFailed := by decide +kernel
  have hgone : ("b" : Text) ∉ refusedOnce.enabled := by decide +kernel
  obtain ⟨⟨ts', second⟩, hnext, -⟩ := hagain 0 _ rfl (by decide) "b" (by decide) (by decide)
    ((hplays.mem_handlerFailed known_of_partition nodup_known_partition).mp hturned) hgone
  cases rest with
  | nil => cases hnext
  | cons next rest =>
    -- A second round would call for `b` again.
    obtain rfl : next = ⟨ts', second⟩ := Option.some.inj hnext
    obtain ⟨hround', hbehind'⟩ := hbehind.of_cons
    have htwo : 2 ≤ second.calls.length := by
      rw [← show _ = second from congrArg Prod.snd hround']
      dsimp only [Round.succeeded]
      decide +kernel
    have hle : second.calls.length ≤ past'.length :=
      (hbehind'.calls known_of_partition).length_le
    omega

end Subscription
