import Subscription.Catalog.Bundled
import Subscription.Proofs.Resolution.Refresh

/-!
What is enabled is granted. A service is enabled only under a contract that grants it, so what has to be
seen is that a refresh takes down all that the new contract does not grant. It does when the handler
disables what it is asked to and required services are listed with all that they require themselves:
the names stand in an order in which no cascade comes upon a service that is down already.
-/

namespace Subscription

open Executor

def Attachment.Granted (a : Attachment) : Prop :=
  ∀ n ∈ a.enabled, n ∈ a.entitlements

namespace Catalog

variable {c : Catalog}

/-- Each service requires all that its requirements require. -/
def Transitive (c : Catalog) : Prop :=
  ∀ a, ∀ b ∈ c.requirementsOf a, ∀ d ∈ c.requirementsOf b, d ∈ c.requirementsOf a

theorem transitive_iff : c.Transitive ↔ ∀ s ∈ c.services, ∀ r ∈ c.services,
    r.name ∈ s.requiredServices → r.requiredServices ⊆ s.requiredServices := by
  have hreq : ∀ s ∈ c.services, c.requirementsOf s.name = s.requiredServices := fun s hs =>
    requirementsOf_of_find? (find?_eq_some_iff.mpr ⟨hs, rfl⟩)
  constructor
  · intro h s hs r hr hsr d hd
    rw [← hreq r hr] at hd
    rw [← hreq s hs] at hsr ⊢
    exact h s.name r.name hsr d hd
  · intro h a b hb d hd
    obtain ⟨s, hs, hbs⟩ := mem_requirementsOf.mp hb
    obtain ⟨r, hr, hdr⟩ := mem_requirementsOf.mp hd
    obtain ⟨hm, rfl⟩ := find?_eq_some_iff.mp hs
    obtain ⟨hm', rfl⟩ := find?_eq_some_iff.mp hr
    rw [hreq s hm]
    exact h s hm r hm' hbs hdr

instance : Decidable c.Transitive :=
  decidable_of_iff _ transitive_iff.symm

theorem transitive_bundled : bundled.Transitive := by
  decide

theorem Transitive.before (transitive : c.Transitive) (action : ServiceAction) :
    TransitiveBefore (c.before action) := by
  intro a b hb d hd
  cases action with
  | enable => exact transitive a b hb d hd
  | disable =>
    have hb : a ∈ c.requirementsOf b := mem_dependentsOf.mp hb
    have hd : b ∈ c.requirementsOf d := mem_dependentsOf.mp hd
    exact mem_dependentsOf.mpr (transitive d b hd a hb)

theorem Transitive.not_overtaken (transitive : c.Transitive) (wf : c.WellFormed)
    (action : ServiceAction) (names : List Text) (t : Text) :
    ¬Overtaken (c.before action) t (sortBy (c.before action) names) :=
  not_overtaken_sortBy (wf.before_acyclic action) (transitive.before action) names

end Catalog

namespace Executor

variable {x : Setting} {action : ServiceAction} {p q : Progress}

theorem Move.granted (h : Move x action p q) (hp : ∀ n ∈ p.enabled, n ∈ x.entitlements) :
    ∀ n ∈ q.enabled, n ∈ x.entitlements := by
  cases h with
  | noted _ enabled _ => rwa [enabled]
  | step hstep =>
    cases hstep with
    | warned | raised | refused => exact hp
    | @changed s _ _ ready _ _ =>
      intro n hn
      cases action with
      | enable =>
        rcases List.mem_append.mp hn with hn | hn
        · exact hp n hn
        · have hfree := (refusal?_eq_none_iff.mp ready.accepted).1
          rw [List.mem_singleton.mp hn]
          exact (obstacle?_enable_eq_none_iff.mp hfree).1
      | disable => exact hp n (List.mem_of_mem_erase hn)

theorem Moves.granted (h : Moves x action p q) (hp : ∀ n ∈ p.enabled, n ∈ x.entitlements) :
    ∀ n ∈ q.enabled, n ∈ x.entitlements := by
  induction h with
  | refl => exact hp
  | tail _ hmove ih => exact hmove.granted ih

end Executor

variable {ctx : Context}

/-- A refresh leaves nothing enabled that the new contract does not grant. -/
theorem granted_resolveRefresh (wf : ctx.catalog.WellFormed) (transitive : ctx.catalog.Transitive)
    (obeys : ctx.handler.Obeys .disable) (attached : ctx.state.attached = true)
    (hs : ctx.state.Sound ctx.catalog ctx.series) (contract : Contract) :
    Yields (resolveRefresh ctx (some contract)) fun r => (r.attachment ctx.state).Granted := by
  intro past r calls hexec
  have hmem : ∀ n, n ∈ ctx.catalog.disableOrder (ctx.lost contract) ↔ n ∈ ctx.lost contract :=
    fun n => Catalog.mem_sortBy
  obtain ⟨done, hdone, hrevocations⟩ :=
    revocations_of_obeys (x := ctx.setting ctx.state true) (p := start past ctx.state.enabled) wf
      obeys rfl (fun n hn => (Context.mem_lost.mp ((hmem n).mp hn)).2.1) hs.consistent.nodup
      (closed_of_requirements hs.consistent.closed .disable)
  rw [exec_resolveRefresh attached contract past hdone] at hexec
  cases hexec
  intro n hn
  have hbefore : n ∈ ctx.state.enabled := hrevocations.subset n hn
  by_contra hnot
  have hlost := Context.mem_lost.mpr ⟨hbefore, hs.consistent.known n hbefore, hnot⟩
  exact hrevocations.not_mem (fun t n => transitive.not_overtaken wf .disable _ t) n
    ((hmem n).mpr hlost) hn

/-- Every resolution keeps attachments sound and within what is granted. -/
theorem Context.invariant_granted (wf : ctx.catalog.WellFormed)
    (transitive : ctx.catalog.Transitive) (obeys : ctx.handler.Obeys .disable) :
    ctx.Invariant fun a => a.Sound ctx.catalog ctx.series ∧ a.Granted where
  wf := wf
  nodup ha := ha.1.consistent.nodup
  unattached := ⟨Attachment.sound_unattached _ _, by simp [Attachment.Granted, Attachment.unattached]⟩
  fresh contract token instanceId :=
    ⟨sound_freshAttachment ctx contract token instanceId,
      by simp [Attachment.Granted, Context.freshAttachment]⟩
  session attached ha h := ⟨sound_after attached ha.1 h, h.granted ha.2⟩
  renewed attached hs contract := fun past r calls hexec =>
    ⟨sound_resolveRefresh wf attached hs.1 contract past r calls hexec,
      granted_resolveRefresh wf transitive obeys attached hs.1 contract past r calls hexec⟩

end Subscription
