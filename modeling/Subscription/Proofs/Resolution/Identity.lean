import Subscription.Proofs.Resolution.Faults

/-!
Which instance a machine is attached on. An instance that attaches itself is on record from then on:
requests keep the contract as it is and a refresh renames it at most. While it is on record, attaching
this instance again is turned down before anything else happens.
-/

namespace Subscription

open Executor

def Attachment.On (instanceId : Text) (a : Attachment) : Prop :=
  a.attached = true ∧ a.contract.bind (·.instanceId) = some instanceId

variable {ctx : Context} {a : Attachment} {instanceId : Text} {token : InstanceToken}

theorem Attachment.On.after (h : a.On instanceId) (p : Progress) : (a.after p).On instanceId :=
  h

theorem Context.on_freshAttachment (ctx : Context) (contract : Contract) (text : Text) :
    (ctx.freshAttachment contract text (some instanceId)).On instanceId :=
  ⟨rfl, rfl⟩

/-! ### What keeps the instance on record -/

theorem on_resolveRequest (on : ctx.state.On instanceId) (r : Request) :
    Yields (resolveRequest ctx r) fun res => (res.attachment ctx.state).On instanceId := by
  refine yields_bind' fun _ => ?_
  dsimp only
  split
  · exact yields_pure on
  · refine yields_bind' fun done => yields_pure ?_
    show ((Resolution.ofSession ctx.state done).attachment ctx.state).On instanceId
    rw [Resolution.attachment_ofSession]
    exact on.after done

theorem on_resolveRefresh (on : ctx.state.On instanceId) (contract : Option Contract) :
    Yields (resolveRefresh ctx contract) fun r => (r.attachment ctx.state).On instanceId := by
  unfold resolveRefresh
  split
  · exact yields_pure on
  · exact yields_pure on
  · next contract _ =>
    refine yields_bind' fun done => yields_pure ⟨on.1, ?_⟩
    have hinstance := on.2
    show (ctx.state.contract.map fun r => { r with name := contract.name }).bind (·.instanceId) = _
    cases hcontract : ctx.state.contract with
    | none =>
      rw [hcontract] at hinstance
      cases hinstance
    | some record =>
      rw [hcontract] at hinstance
      exact hinstance

/-! ### What puts it on record -/

namespace AutoAttach

variable {p : Partition} {limit : Number} {opts : AutoAttachOptions}

theorem on_rounds (left : Nat) : ∀ (a : Attachment) (tally : Tally) (settled : List Text),
    a.On instanceId → Yields (rounds ctx p limit left a tally settled) fun r =>
      ∀ b, (r.attachment b).On instanceId := by
  induction left with
  | zero =>
    intro a tally settled on
    exact yields_bind' fun done => yields_pure fun _ => on.after done
  | succ left ih =>
    intro a tally settled on
    rw [rounds]
    refine yields_bind' fun done => ?_
    split
    · exact ih _ _ _ (on.after done)
    · exact yields_pure fun _ => on.after done

/-- The machine stays as it has arrived, or is attached on its instance. -/
theorem on_enrol (arrival : Arrival) (b : Attachment) (contract : Option Contract) :
    Yields (enrol ctx opts arrival contract) fun r =>
      r.next = arrival.detached ∨ (r.attachment b).On arrival.token.instanceId := by
  cases contract with
  | none => exact yields_pure (Or.inl rfl)
  | some contract =>
    have hfresh : (ctx.freshAttachment contract arrival.token.token
        (some arrival.token.instanceId)).On arrival.token.instanceId :=
      ctx.on_freshAttachment contract arrival.token.token
    unfold enrol
    dsimp only
    split
    · exact yields_bind' fun done => yields_pure (Or.inr (hfresh.after done))
    · split
      · intro past r past' h
        exact Or.inr (on_rounds _ _ _ _ hfresh past r past' h b)
      · exact yields_pure (Or.inr hfresh)

end AutoAttach

/-- However an instance is attached, if the machine is attached in the end it is so on this instance. -/
theorem on_resolveAutoAttach (opts : AutoAttachOptions)
    (contracts : Text → Except Fault (Option Contract)) :
    Yields (resolveAutoAttach ctx opts (some token) contracts) fun r =>
      (r.attachment ctx.state).attached = true →
        (r.attachment ctx.state).On token.instanceId := by
  intro past r past' h hattached
  obtain ⟨arrived, past₁, harrive, hrest⟩ := exec_bind_eq_ok.mp h
  have hyields := AutoAttach.yields_arrive past arrived past₁ harrive
  cases arrived with
  | inl blocked =>
    cases hrest
    rcases hyields with ⟨rfl, attached, same⟩ | hunattached
    · exact ⟨attached, same⟩
    · rw [Resolution.attachment, hunattached] at hattached
      cases hattached
  | inr arrival =>
    obtain ⟨rfl, -⟩ := hyields
    obtain ⟨contract, past₂, -, henrol⟩ := exec_bind_eq_ok.mp hrest
    rcases AutoAttach.on_enrol arrival ctx.state contract past₂ r past' henrol with hnext | on
    · -- An arrival that ends here leaves the machine unattached, as it was or as it has become.
      rw [Resolution.attachment, hnext] at hattached
      rcases AutoAttach.arrived_cases harrive with ⟨unattached, harrival, -⟩ |
        ⟨attached, -, detached, hdetach, -, harrival⟩
      · rw [harrival] at hattached
        cases unattached.symm.trans hattached
      · rw [harrival] at hattached
        dsimp only at hattached
        rw [AutoAttach.yields_resolveDetach attached past detached past₁ hdetach] at hattached
        cases hattached
    · exact on

theorem exec_arrive_of_on (on : ctx.state.On token.instanceId) (past : List Call) :
    exec (AutoAttach.arrive ctx (some token)) past =
      (.ok (.inl (.blocked (.sameInstance token.instanceId))), past) := by
  simp only [AutoAttach.arrive, on.1, on.2, Bool.not_true, Bool.false_eq_true, if_false, if_true]
  rfl

end Subscription
