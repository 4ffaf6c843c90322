import Subscription.Proofs.Resolution.Resolver
import Subscription.Proofs.Resolution.Session

/-!
What every resolution preserves. A resolution takes an attachment over as it is, gives it up, makes a
fresh one, or moves from one by sessions; only a refresh changes what is granted. `Invariant` says what
a property of attachments has to be for all of these to keep it, and `Invariant.run` that every
resolution does then, whatever the handler answers and whatever the contracts are.
-/

namespace Subscription

open Executor

/-- A property of attachments that holds of those without anything enabled, and that sessions and
refreshes keep. -/
structure Context.Invariant (ctx : Context) (P : Attachment → Prop) : Prop where
  wf : ctx.catalog.WellFormed
  nodup : ∀ {a}, P a → a.enabled.Nodup
  unattached : P .unattached
  fresh : ∀ contract token instanceId, P (ctx.freshAttachment contract token instanceId)
  session : ∀ {a yes action past p}, a.attached = true → P a →
    Moves (ctx.setting a yes) action (start past a.enabled) p → P (a.after p)
  renewed : ctx.state.attached = true → P ctx.state → ∀ contract,
    Yields (resolveRefresh ctx (some contract)) fun r => P (r.attachment ctx.state)

namespace Context.Invariant

variable {ctx : Context} {P : Attachment → Prop} {a : Attachment} {yes : Bool}

theorem yields_session (inv : ctx.Invariant P) {body : Setting → Run Unit} {action : ServiceAction}
    (h : ∀ past, Moves (ctx.setting a yes) action (start past a.enabled)
      (exec (body (ctx.setting a yes)) (start past a.enabled)).2)
    (attached : a.attached = true) (ha : P a) :
    Yields (ctx.session a yes body) fun p => P (a.after p) := by
  intro past p calls hexec
  obtain ⟨past', hmoves⟩ := Subscription.yields_session h past p calls hexec
  exact inv.session attached ha hmoves

theorem request (inv : ctx.Invariant P) (hs : P ctx.state) (r : Request) :
    Yields (resolveRequest ctx r) fun res => P (res.attachment ctx.state) := by
  refine yields_bind' fun _ => ?_
  dsimp only
  split
  · exact yields_pure hs
  · next hobstacle =>
    refine yields_bind (inv.yields_session (fun past => moves_runBatch inv.wf (fun n hn => ?_)
      (inv.nodup hs)) (Partition.attached_of_obstacle? hobstacle) hs) fun p hp => ?_
    · exact Catalog.has_of_knows (Catalog.mem_known.mp hn).2
    · refine yields_pure ?_
      show P ((Resolution.ofSession ctx.state p).attachment ctx.state)
      rw [Resolution.attachment_ofSession]
      exact hp

theorem attach (inv : ctx.Invariant P) (hs : P ctx.state) (token : Text) (autoEnable : Bool)
    (contract : Option Contract) :
    Yields (resolveAttach ctx token autoEnable contract) fun r => P (r.attachment ctx.state) := by
  unfold resolveAttach
  split
  · exact yields_pure hs
  · exact yields_pure hs
  · next contract _ =>
    have hsession : ∀ x : Setting, x.catalog.WellFormed → ∀ p : Progress, p.enabled.Nodup →
        Moves x .enable p (exec (if autoEnable then enableDefaults x else pure ()) p).2 := by
      intro x wf p hp
      split
      · exact moves_enableDefaults wf hp
      · exact .refl
    exact yields_bind (inv.yields_session (fun past => hsession _ inv.wf _ .nil) rfl
      (inv.fresh contract token none)) fun p hp => yields_pure hp

theorem detach (inv : ctx.Invariant P) (hs : P ctx.state) :
    Yields (resolveDetach ctx) fun r =>
      P (r.attachment ctx.state) ∧ ∀ a, r.next = some a → P a := by
  unfold resolveDetach
  split
  · exact yields_pure ⟨hs, fun a h => by cases h⟩
  · refine yields_bind' fun p => yields_pure ⟨inv.unattached, fun a h => ?_⟩
    cases h
    exact inv.unattached

theorem refresh (inv : ctx.Invariant P) (hs : P ctx.state) (contract : Option Contract) :
    Yields (resolveRefresh ctx contract) fun r => P (r.attachment ctx.state) := by
  cases contract with
  | none =>
    unfold resolveRefresh
    split
    · exact yields_pure hs
    · exact yields_pure hs
    · next h => cases h
  | some contract =>
    by_cases attached : ctx.state.attached = true
    · exact inv.renewed attached hs contract
    · simp only [resolveRefresh, LifecycleAction.obstacle?, attached]
      exact yields_pure hs

/-! ### Attaching an instance -/

/-- An instance that has arrived is as before, or has given up an older subscription. -/
theorem arrive (inv : ctx.Invariant P) (hs : P ctx.state) (token : Option InstanceToken) :
    Yields (AutoAttach.arrive ctx token) fun
      | .inl r => P (r.attachment ctx.state)
      | .inr arrival => ∀ a, arrival.detached = some a → P a := by
  cases token with
  | none => exact yields_pure hs
  | some token =>
    unfold AutoAttach.arrive
    dsimp only
    split
    · exact yields_pure fun a h => by cases h
    · split
      · exact yields_pure hs
      · refine yields_bind (inv.detach hs) fun detached hdetached => ?_
        split
        · exact yields_pure hdetached.1
        · exact yields_pure hdetached.2

theorem rounds (inv : ctx.Invariant P) {p : Partition} (known : ∀ n ∈ p.known, ctx.catalog.has n)
    (limit : Number) (left : Nat) :
    ∀ (a : Attachment) (tally : Tally) (settled : List Text), a.attached = true → P a →
      Yields (AutoAttach.rounds ctx p limit left a tally settled) fun r =>
        ∀ b, P (r.attachment b) := by
  have hround : ∀ (a : Attachment) (settled : List Text), a.attached = true → P a →
      Yields (ctx.session a true (AutoAttach.enableUnsettled settled · p.known)) fun done =>
        P (a.after done) := fun a settled attached ha =>
    inv.yields_session (fun past => moves_enableUnsettled inv.wf known (inv.nodup ha)) attached ha
  induction left with
  | zero =>
    intro a tally settled attached ha
    refine yields_bind (hround a settled attached ha) fun done hdone => ?_
    exact yields_pure fun _ => hdone
  | succ left ih =>
    intro a tally settled attached ha
    rw [AutoAttach.rounds]
    refine yields_bind (hround a settled attached ha) fun done hdone => ?_
    split
    · exact ih _ _ _ attached hdone
    · exact yields_pure fun _ => hdone

theorem enrol (inv : ctx.Invariant P) (hs : P ctx.state) (opts : AutoAttachOptions)
    {arrival : AutoAttach.Arrival} (harrival : ∀ a, arrival.detached = some a → P a)
    (contract : Option Contract) :
    Yields (AutoAttach.enrol ctx opts arrival contract) fun r => P (r.attachment ctx.state) := by
  cases contract with
  | none =>
    refine yields_pure ?_
    show P (arrival.detached.getD ctx.state)
    cases h : arrival.detached with
    | none => exact hs
    | some a => exact harrival a h
  | some contract =>
    have hfresh := inv.fresh contract arrival.token.token (some arrival.token.instanceId)
    unfold AutoAttach.enrol
    dsimp only
    split
    · exact yields_bind (inv.yields_session (fun past => moves_enableDefaults inv.wf .nil) rfl hfresh)
        fun done hdone => yields_pure hdone
    · split
      · refine fun past r calls hexec => inv.rounds (fun n hn => ?_) _ _ _ _ _ rfl hfresh
          past r calls hexec ctx.state
        exact Catalog.has_of_knows (Catalog.mem_known.mp hn).2
      · exact yields_pure hfresh

/-- Every resolution keeps the property. -/
theorem run (inv : ctx.Invariant P) (hs : P ctx.state) (t : Resolver) :
    Yields (t.run ctx) fun r => P (r.attachment ctx.state) := by
  cases t with
  | request r => exact inv.request hs r
  | attach token autoEnable contract => exact inv.attach hs token autoEnable contract
  | detach => exact fun past r calls hexec => (inv.detach hs past r calls hexec).1
  | refresh contract => exact inv.refresh hs contract
  | autoAttach opts token contracts =>
    refine yields_bind (inv.arrive hs token) fun arrived harrived => ?_
    cases arrived with
    | inl r => exact yields_pure harrived
    | inr arrival => exact yields_bind' fun contract => inv.enrol hs opts harrived contract

end Context.Invariant

end Subscription
