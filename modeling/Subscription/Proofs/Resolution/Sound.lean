import Subscription.Proofs.Executor.Consistent
import Subscription.Proofs.Resolution.Invariant

/-!
Sound attachments. An attached machine has a contract and a consistent list of enabled services, an
unattached one has nothing at all. Every resolution takes a sound attachment to a sound one, whatever the
handler answers and whatever the contracts are.
-/

namespace Subscription

open Executor

/-- What an attachment is like at all times, for a catalog and a series. -/
structure Attachment.Sound (c : Catalog) (series : Text) (a : Attachment) : Prop where
  consistent : c.Consistent series a.enabled
  contract : a.attached = true → a.contract ≠ none
  unattached : a.attached = false → a = .unattached

variable {ctx : Context} {a : Attachment} {yes : Bool}

theorem Attachment.sound_unattached (c : Catalog) (series : Text) :
    Attachment.unattached.Sound c series where
  consistent := c.consistent_nil series
  contract h := by cases h
  unattached _ := rfl

theorem sound_freshAttachment (ctx : Context) (contract : Contract) (token : Text)
    (instanceId : Option Text) :
    (ctx.freshAttachment contract token instanceId).Sound ctx.catalog ctx.series where
  consistent := ctx.catalog.consistent_nil ctx.series
  contract _ := by simp [Context.freshAttachment]
  unattached h := by cases h

theorem sound_after {action : ServiceAction} {past : List Call} {p : Progress}
    (attached : a.attached = true) (ha : a.Sound ctx.catalog ctx.series)
    (h : Moves (ctx.setting a yes) action (start past a.enabled) p) :
    (a.after p).Sound ctx.catalog ctx.series where
  consistent := h.consistent ha.consistent
  contract := ha.contract
  unattached hattached := by
    rw [show a.attached = false from hattached] at attached
    cases attached

/-- A refresh leaves what its session leaves, under another contract. -/
theorem sound_resolveRefresh (wf : ctx.catalog.WellFormed) (attached : ctx.state.attached = true)
    (hs : ctx.state.Sound ctx.catalog ctx.series) (contract : Contract) :
    Yields (resolveRefresh ctx (some contract)) fun r =>
      (r.attachment ctx.state).Sound ctx.catalog ctx.series := by
  simp only [resolveRefresh, LifecycleAction.obstacle?, attached, if_true]
  refine yields_bind (yields_session fun past => moves_revokeAll wf (fun n hn => ?_)
    hs.consistent.nodup) fun done hended => ?_
  · have hlost := (List.mem_filter.mp (Catalog.mem_sortBy.mp hn)).2
    rw [Bool.and_eq_true] at hlost
    exact hlost.1
  · obtain ⟨past, hmoves⟩ := hended
    have hdone := sound_after attached hs hmoves
    apply yields_pure
    refine ⟨hdone.consistent, fun hattached hnone => ?_, fun hunattached => ?_⟩
    · exact hdone.contract hattached (Option.map_eq_none_iff.mp hnone)
    · rw [show ctx.state.attached = false from hunattached] at attached
      cases attached

/-- Every resolution keeps attachments sound. -/
theorem Context.invariant_sound (wf : ctx.catalog.WellFormed) :
    ctx.Invariant (Attachment.Sound ctx.catalog ctx.series) where
  wf := wf
  nodup ha := ha.consistent.nodup
  unattached := Attachment.sound_unattached _ _
  fresh := sound_freshAttachment ctx
  session := sound_after
  renewed attached hs contract := sound_resolveRefresh wf attached hs contract

end Subscription
