import Subscription.Proofs.Executor.Replies
import Subscription.Proofs.Resolution.Faults

/-!
What attaching an instance passes on of the replies of the handler. Each of its sessions keeps a tally,
and the tallies of the sessions that enable services are absorbed, with or without their failures, by the
one that is reported. The tally of the detach that frees the machine of an older subscription is not. So
a report has all notices since the machine has arrived, and a reboot that was asked for since then; what
was said on its way is lost.
-/

namespace Subscription

open Executor

variable {ctx : Context} {tally : Tally} {past past' : List Call}

theorem heard_of_session {a : Attachment} {yes : Bool} {body : Setting → Run Unit} {done : Progress}
    (hears : KeepsTo (Hears ctx.handler) (body (ctx.setting a yes)))
    (h : exec (ctx.session a yes body) past = (.ok done, past')) :
    ∃ made, past' = past ++ made ∧ ctx.handler.Heard past made .empty done.tally := by
  have hheard := hears (start past a.enabled)
  obtain ⟨hbody, rfl⟩ := exec_session_eq_ok.mp h
  rw [hbody] at hheard
  exact hheard

/-- Whatever was called before, what a computation reports is a tally to which it has added all that it
was told by the handler. -/
def Heeds (ctx : Context) (tally : Tally) (resolving : Resolving Resolution) : Prop :=
  ∀ past r past', exec resolving past = (.ok r, past') →
    ∃ made reported, past' = past ++ made ∧ r.report = reported.report ∧
      ctx.handler.Heard past made tally reported

theorem heeds_pure {reported : Tally} {next : Option Attachment}
    (hwarnings : reported.warnings = tally.warnings)
    (hreboot : reported.needsReboot = tally.needsReboot) :
    Heeds ctx tally (pure ⟨reported.report, next⟩) := by
  intro past r past' h
  cases h
  exact ⟨[], _, (List.append_nil _).symm, rfl, .of_eq hwarnings hreboot⟩

namespace AutoAttach

variable {p : Partition} {limit : Number} {opts : AutoAttachOptions} {token : InstanceToken}
  {arrival : Arrival}

theorem heard_conclude {a : Attachment} {made : List Call} {done : Progress}
    (h : ctx.handler.Heard past made .empty done.tally) :
    ∃ reported, (conclude p limit a tally done).report = reported.report ∧
      ctx.handler.Heard past made tally reported := by
  have habsorbed := h.absorb tally true
  rw [conclude, foldl_addError]
  exact ⟨_, rfl, habsorbed.needsReboot, habsorbed.warnings⟩

theorem heeds_rounds (known : ∀ n ∈ p.known, ctx.catalog.has n) (left : Nat) :
    ∀ (a : Attachment) (tally : Tally) (settled : List Text),
      Heeds ctx tally (rounds ctx p limit left a tally settled) := by
  have hround : ∀ (a : Attachment) (settled : List Text),
      KeepsTo (Hears ctx.handler) (enableUnsettled settled (ctx.setting a true) p.known) :=
    fun a settled => pervasive_hears.enableUnsettled settled known
  induction left with
  | zero =>
    intro a tally settled past r past' h
    rw [rounds] at h
    obtain ⟨done, past₁, hsession, h⟩ := exec_bind_eq_ok.mp h
    obtain ⟨made, rfl, hheard⟩ := heard_of_session (hround a settled) hsession
    cases h
    obtain ⟨reported, hreport, hheard⟩ := heard_conclude (p := p) hheard
    exact ⟨made, reported, rfl, hreport, hheard⟩
  | succ left ih =>
    intro a tally settled past r past' h
    rw [rounds] at h
    obtain ⟨done, past₁, hsession, h⟩ := exec_bind_eq_ok.mp h
    obtain ⟨made, rfl, hheard⟩ := heard_of_session (hround a settled) hsession
    split at h
    · -- What the round has said of its failures is dropped, and what it was told is not.
      obtain ⟨more, reported, rfl, hreport, hmore⟩ := ih _ _ _ _ _ _ h
      exact ⟨made ++ more, reported, List.append_assoc .., hreport,
        (hheard.absorb tally false).trans hmore⟩
    · cases h
      obtain ⟨reported, hreport, hheard⟩ := heard_conclude (p := p) hheard
      exact ⟨made, reported, rfl, hreport, hheard⟩

theorem heeds_enrol (arrival : Arrival) (contract : Option Contract) :
    Heeds ctx arrival.tally (enrol ctx opts arrival contract) := by
  cases contract with
  | none => exact heeds_pure rfl rfl
  | some contract =>
    unfold enrol
    dsimp only
    split
    · intro past r past' h
      obtain ⟨done, past₁, hsession, h⟩ := exec_bind_eq_ok.mp h
      obtain ⟨made, rfl, hheard⟩ := heard_of_session pervasive_hears.enableDefaults hsession
      cases h
      exact ⟨made, _, rfl, rfl, hheard.absorb _ true⟩
    · split
      · exact heeds_rounds (fun n hn => Catalog.has_of_knows (Catalog.mem_known.mp hn).2) _ _ _ _
      · exact heeds_pure rfl rfl

theorem silent_arrival (h : exec (arrive ctx (some token)) past = (.ok (.inr arrival), past')) :
    ∃ gone, past' = past ++ gone ∧ (ctx.state.attached = false → gone = []) ∧
      arrival.tally.needsReboot = false ∧ Interspersed [] arrival.tally.warnings := by
  obtain ⟨gone, hgone, -⟩ := calls_of_arrive h
  refine ⟨gone, hgone, ?_⟩
  rcases arrived_cases h with ⟨-, rfl, rfl⟩ | ⟨attached, -, detached, -, -, rfl⟩
  · exact ⟨fun _ => List.self_eq_append_right.mp hgone, rfl, .nil⟩
  · exact ⟨fun hn => absurd (attached.symm.trans hn) (by decide), rfl, .own (Or.inl rfl) .nil⟩

/-- A machine that does not arrive stays on its instance, or could not be detached. -/
theorem blocked_of_arrive {r : Resolution}
    (h : exec (arrive ctx (some token)) past = (.ok (.inl r), past')) :
    (ctx.state.attached = true ∧
        ctx.state.contract.bind (·.instanceId) = some token.instanceId) ∨
      .ofSystem .detachFailed ∈ r.report.errors := by
  unfold arrive at h
  dsimp only at h
  split at h
  · cases h
  · next attached =>
    split at h
    · next hsame => exact Or.inl ⟨by simpa using attached, hsame⟩
    · obtain ⟨detached, past₁, -, h⟩ := exec_bind_eq_ok.mp h
      split at h
      · cases h
        exact Or.inr List.mem_cons_self
      · cases h

end AutoAttach

open AutoAttach in
/-- An instance that is attached, without a detach that fails, reports a reboot exactly when one was asked
for since the machine has arrived, and all notices since then in the order of the calls, with nothing but
the program's own warnings between them. So the reboots that were asked for in the whole operation are
told rightly unless one was asked for on the way only; and the notices of the whole operation are all
there, in the order of the calls, only if there were none on the way, or one that is worded like a warning
of the program's own. -/
theorem autoAttach_passes_on_iff {opts : AutoAttachOptions} {token : InstanceToken}
    {contracts : Text → Except Fault (Option Contract)} {r : Resolution}
    (elsewhere : ctx.state.attached = true →
      ctx.state.contract.bind (·.instanceId) ≠ some token.instanceId)
    (h : exec (resolveAutoAttach ctx opts (some token) contracts) past = (.ok r, past'))
    (detached : .ofSystem .detachFailed ∉ r.report.errors) :
    ∃ arrival gone made,
      exec (arrive ctx (some token)) past = (.ok (.inr arrival), past ++ gone) ∧
      (ctx.state.attached = false → gone = []) ∧ past' = past ++ (gone ++ made) ∧
      (r.report.needsReboot = true ↔ ctx.handler.AsksReboot (past ++ gone) made) ∧
      Interspersed (ctx.handler.notices (past ++ gone) made) r.report.warnings ∧
      ((r.report.needsReboot = true ↔ ctx.handler.AsksReboot past (gone ++ made)) ↔
        (ctx.handler.AsksReboot past gone → ctx.handler.AsksReboot (past ++ gone) made)) ∧
      ((∀ e ∈ ctx.handler.notices past gone, ¬e.Own) →
        ((ctx.handler.notices past (gone ++ made)).Sublist r.report.warnings ↔
          ctx.handler.notices past gone = [])) := by
  rw [resolveAutoAttach] at h
  obtain ⟨arrived, past₁, harrive, h⟩ := exec_bind_eq_ok.mp h
  cases arrived with
  | inl blocked =>
    cases h
    rcases blocked_of_arrive harrive with ⟨attached, hsame⟩ | hfailed
    · exact absurd hsame (elsewhere attached)
    · exact absurd hfailed detached
  | inr arrival =>
    obtain ⟨contract, past₂, hfound, h⟩ := exec_bind_eq_ok.mp h
    rw [exec_liftExcept] at hfound
    obtain ⟨-, rfl⟩ := Prod.mk.inj hfound
    obtain ⟨gone, rfl, hunattached, hnoreboot, hown⟩ := silent_arrival harrive
    obtain ⟨made, reported, rfl, hreport, hheard⟩ := heeds_enrol _ _ _ _ _ h
    obtain ⟨said, hsaid, hnotices⟩ := hheard.warnings
    have hreboot : r.report.needsReboot = true ↔ ctx.handler.AsksReboot (past ++ gone) made := by
      rw [hreport]
      exact hheard.needsReboot.trans (by simp [hnoreboot])
    have hwarnings : Interspersed (ctx.handler.notices (past ++ gone) made) r.report.warnings := by
      rw [hreport, show reported.report.warnings = _ from hsaid]
      exact hown.append hnotices
    refine ⟨arrival, gone, made, harrive, hunattached, List.append_assoc .., hreboot, hwarnings, ?_,
      fun hforeign => ?_⟩
    · rw [hreboot, Handler.asksReboot_append]
      tauto
    · rw [Handler.notices_append]
      exact hwarnings.append_sublist_iff hforeign

/-- A machine on another instance, whose handler asks for a reboot when it disables `b`. -/
def movingContext : Context where
  catalog := Catalog.pair
  handler := .scripted fun action n =>
    if action = .disable ∧ n = "b" then [.done true []] else []
  series := "jammy"
  now := "2026-01-01T00:00:00.000Z"
  state := ⟨true, ["a", "b"], ["b"], some ⟨"k", "s", "2026-01-01T00:00:00.000Z", some "h"⟩⟩

def moved : Resolution where
  report := ⟨.success, [], [], [], [.ofSystem .reattaching], false⟩
  next := some ⟨true, ["a", "b"], [], some ⟨"k", "t", "2026-01-01T00:00:00.000Z", some "i"⟩⟩

theorem exec_moving :
    exec (resolveAutoAttach movingContext ⟨[], [], none⟩ (some ⟨"i", "t"⟩)
      fun _ => .ok (some ⟨"k", ["a", "b"]⟩)) [] =
    (.ok moved, [⟨.disable, Catalog.plainService "jammy" "b" [], "jammy", true⟩]) := rfl

theorem autoAttach_passes_on_iff_moving :
    ∃ r past', exec (resolveAutoAttach movingContext ⟨[], [], none⟩ (some ⟨"i", "t"⟩)
        fun _ => .ok (some ⟨"k", ["a", "b"]⟩)) [] = (.ok r, past') ∧
      ∃ arrival gone made,
        exec (AutoAttach.arrive movingContext (some ⟨"i", "t"⟩)) [] =
          (.ok (.inr arrival), [] ++ gone) ∧
        (movingContext.state.attached = false → gone = []) ∧ past' = [] ++ (gone ++ made) ∧
        (r.report.needsReboot = true ↔ movingContext.handler.AsksReboot ([] ++ gone) made) ∧
        Interspersed (movingContext.handler.notices ([] ++ gone) made) r.report.warnings ∧
        ((r.report.needsReboot = true ↔ movingContext.handler.AsksReboot [] (gone ++ made)) ↔
          (movingContext.handler.AsksReboot [] gone →
            movingContext.handler.AsksReboot ([] ++ gone) made)) ∧
        ((∀ e ∈ movingContext.handler.notices [] gone, ¬e.Own) →
          ((movingContext.handler.notices [] (gone ++ made)).Sublist r.report.warnings ↔
            movingContext.handler.notices [] gone = [])) :=
  ⟨_, _, exec_moving, autoAttach_passes_on_iff (by decide) exec_moving (by decide)⟩

/-- Nothing is left to be enabled here, and the reboot for `b` is not reported. -/
theorem autoAttach_forgets_moving :
    ¬∀ (document : Json) (ctx : Context) (opts : AutoAttachOptions) (token : InstanceToken)
        (contracts : Text → Except Fault (Option Contract)) (past new : List Call) (r : Resolution),
      Catalog.ofDocument document = .ok ctx.catalog →
      (ctx.state.attached = true →
        ctx.state.contract.bind (·.instanceId) ≠ some token.instanceId) →
      exec (resolveAutoAttach ctx opts (some token) contracts) past = (.ok r, past ++ new) →
      .ofSystem .detachFailed ∉ r.report.errors →
      (r.report.needsReboot = true ↔ ctx.handler.AsksReboot past new) ∧
        (ctx.handler.notices past new).Sublist r.report.warnings := by
  intro h
  have hreboot := (h Catalog.pairDocument movingContext ⟨[], [], none⟩ ⟨"i", "t"⟩
    (fun _ => .ok (some ⟨"k", ["a", "b"]⟩)) [] _ moved Catalog.ofDocument_pair (by decide) exec_moving
    (by decide)).1
  exact absurd (hreboot.mpr ⟨_, List.mem_cons_self, rfl⟩) (by decide)

end Subscription
