import Subscription.Proofs.Manager.InMemory
import Subscription.Proofs.Manager.OnDisk
import Subscription.Proofs.Resolution.Identity

/-!
An instance is attached once. When it has attached itself it is on record, and it is still so after any
run of enabling, disabling and refreshing, whatever the handler and the contracts answer on the way. As
long as it is on record, attaching it again is turned down, without a call, without a look at the contracts
and without a change to what is stored.
-/

namespace Subscription

def Operation.Stays : Operation → Prop
  | .change .. | .refresh => True
  | .attach .. | .autoAttach _ | .detach => False

namespace Embedded.World

variable {w : World} {op : Operation} {a : Attachment} {instanceId : Text}

theorem on_resolving (stays : op.Stays) (on : a.On instanceId) :
    Yields (w.resolving op a) fun r => (r.attachment a).On instanceId := by
  have hstate : (w.context a).state.On instanceId := on
  cases op with
  | change action names assumeYes allowBeta => exact on_resolveRequest hstate _
  | refresh =>
    rw [resolving, resolver, lift_map_bind]
    exact yields_bind' fun contract => on_resolveRefresh hstate contract
  | attach | autoAttach | detach => exact stays.elim

theorem on_step (stays : op.Stays) (on : a.On instanceId) (gate : Except Fault Unit)
    (past : List Call) : (w.step op gate a past).2.1.On instanceId := by
  rcases w.step_cases op gate a past with ⟨f, -, h⟩ | ⟨f, past', -, -, h⟩ | ⟨r, past', -, hexec, h⟩
  all_goals rw [h]
  · exact on
  · exact on
  · exact on_resolving stays on past r past' hexec

/-- When an instance attaches itself and is attached in the end, it is on record. -/
theorem on_step_autoAttach {token : InstanceToken} (there : w.instanceToken = .ok (some token))
    {options : AutoAttachOptions} {gate : Except Fault Unit} {past : List Call} {done : Performed}
    (h : (w.step (.autoAttach options) gate a past).1 = .ok done)
    (attached : done.attachment.attached = true) :
    (w.step (.autoAttach options) gate a past).2.1.On token.instanceId := by
  have hresolving : w.resolving (.autoAttach options) a =
      resolveAutoAttach (w.context a) options (some token) w.contracts := by
    rw [resolving, resolver, there]
    rfl
  rcases w.step_cases (.autoAttach options) gate a past with
    ⟨f, -, hstep⟩ | ⟨f, past', -, -, hstep⟩ | ⟨r, past', -, hexec, hstep⟩
  all_goals
    rw [hstep] at h ⊢
    cases h
  rw [hresolving] at hexec
  exact on_resolveAutoAttach options w.contracts past r past' hexec attached

end Embedded.World

namespace Manager

variable {σ : Type}

/-- An operation is turned down with a message. It makes no call and leaves the stored text alone, and it
looks up no contract: whatever looking one up would come to makes no difference. -/
structure TurnsDown (mgr : Manager (StateM σ)) (v : View σ) (op : Operation) (m : Message) (s : σ) :
    Prop where
  refused : (exec (mgr.perform op) s).1 = .ok ⟨.blocked (.ofSystem m), v.attachment s⟩
  stored : v.stored (exec (mgr.perform op) s).2 = v.stored s
  calls : v.calls (exec (mgr.perform op) s).2 = v.calls s
  contracts : ∀ contracts : Text → ExceptT Fault (StateM σ) (Option Contract),
    exec ({ mgr with contracts := contracts }.perform op) s = exec (mgr.perform op) s

def arriving (mgr : Manager (StateM σ)) (a : Attachment) :
    ExceptT Fault (StateM σ) (Resolution ⊕ AutoAttach.Arrival) := do
  let ctx ← mgr.context a
  mgr.settle (AutoAttach.arrive ctx (← mgr.instanceToken))

/-- An instance that does not arrive is dealt with in the first half: nothing is written, and no contract
is looked up. -/
theorem exec_carryOut_of_arriving {mgr : Manager (StateM σ)} {a : Attachment}
    {options : AutoAttachOptions} {m : Message} {s t u : σ}
    (hread : exec mgr.attachment s = (.ok a, s))
    (harrive : exec (mgr.arriving a) s = (.ok (.inl (.blocked m)), t))
    (hlog : exec (mgr.log (.autoAttach options) (.blocked (.ofSystem m))) t = (.ok (), u)) :
    exec (mgr.carryOut (.autoAttach options)) s = (.ok ⟨.blocked (.ofSystem m), a⟩, u) := by
  have hresolve : exec (mgr.resolve (.autoAttach options) a) s = (.ok (.blocked m), t) := by
    obtain ⟨ctx, s₁, hcontext, hrest⟩ := exec_bind_eq_ok.mp harrive
    obtain ⟨token, s₂, htoken, hsettle⟩ := exec_bind_eq_ok.mp hrest
    rw [resolve, exec_bind, hcontext]
    simp only [exec_bind, htoken, hsettle, exec_pure]
  rw [carryOut, exec_bind, hread]
  dsimp only
  rw [exec_bind, hresolve]
  simp only [Resolution.blocked, exec_bind, hlog, exec_pure]
  rfl

namespace Serves

variable {mgr : Manager (StateM σ)} {w : Embedded.World} {v : View σ} {alone : Prop} {s : σ}
  {token : InstanceToken}

theorem exec_arriving (h : mgr.Serves w v alone) (there : w.instanceToken = .ok (some token))
    {a : Attachment} (on : a.On token.instanceId) (hs : v.busy s) :
    ∃ t, exec (mgr.arriving a) s = (.ok (.inl (.blocked (.sameInstance token.instanceId))), t) ∧
      v.busy t ∧ v.Agree s t := by
  have hsimulates : Simulates v (mgr.arriving a) (do
      let token ← w.instanceToken
      AutoAttach.arrive (w.context a) token) := by
    intro s hs
    rw [arriving, exec_bind, h.exec_context]
    exact simulates_bind (simulates_lift fun s hs => h.instanceToken hs)
      (fun token => h.simulates_settle _) s hs
  obtain ⟨t, hexec, ht, hstored, hcalls⟩ := hsimulates s hs
  have hstate : (w.context a).state.On token.instanceId := on
  have harrive := exec_arrive_of_on hstate (v.calls s)
  rw [there, exec_bind, exec_liftExcept] at hexec hcalls
  simp only [harrive] at hexec hcalls
  exact ⟨t, hexec, ht, hstored, hcalls⟩

theorem carryOut_of_on (h : mgr.Serves w v alone) (there : w.instanceToken = .ok (some token))
    (on : (v.attachment s).On token.instanceId) (hs : v.busy s) (options : AutoAttachOptions) :
    ∃ t, v.Agree s t ∧ ∀ contracts : Text → ExceptT Fault (StateM σ) (Option Contract),
      exec ({ mgr with contracts := contracts }.carryOut (.autoAttach options)) s =
        (.ok ⟨.blocked (.ofSystem (.sameInstance token.instanceId)), v.attachment s⟩, t) := by
  obtain ⟨t, harrive, ht, hagree⟩ := h.exec_arriving there on hs
  obtain ⟨u, hlog, -, hagree'⟩ := h.logs ht (.autoAttach options)
    (.blocked (.ofSystem (.sameInstance token.instanceId)))
  refine ⟨u, ⟨hagree'.1.trans hagree.1, hagree'.2.trans hagree.2⟩, fun contracts => ?_⟩
  -- What is read, what arrives and what is logged does not depend on the contracts.
  exact exec_carryOut_of_arriving (h.reads (Or.inr hs)) harrive hlog

/-- When the lock is granted, attaching an instance that is on record is turned down. -/
theorem turnsDown (h : mgr.Serves w v alone) (there : w.instanceToken = .ok (some token))
    (on : (v.attachment s).On token.instanceId) (hs : v.idle s) {options : AutoAttachOptions}
    (granted : (exec (mgr.start (.autoAttach options)) s).1 = .ok ()) :
    mgr.TurnsDown v (.autoAttach options) (.sameInstance token.instanceId) s := by
  obtain ⟨t, hstart, ht, hagree, hperform⟩ := h.perform_of_granted (.autoAttach options) hs granted
  rw [← hagree.attachment] at on
  obtain ⟨t', hkept, hcarry⟩ := h.carryOut_of_on there on ht options
  have hcarry' : exec (mgr.carryOut (.autoAttach options)) t = _ := hcarry mgr.contracts
  obtain ⟨hresult, hstored, hcalls⟩ := hperform hcarry' hkept
  rw [hagree.attachment] at hresult
  refine ⟨hresult, hstored, hcalls, fun contracts => ?_⟩
  have hstart' :
      exec ({ mgr with contracts := contracts }.start (.autoAttach options)) s = (.ok (), t) :=
    hstart
  rw [Manager.perform, Manager.perform, exec_bind, exec_bind, hstart, hstart']
  dsimp only
  rw [Manager.finish, Manager.finish, exec_thenRelease, exec_thenRelease, hcarry, hcarry']

/-- With the lock, an instance that attaches itself and is attached in the end is on record. -/
theorem on_of_finish (h : mgr.Serves w v alone) (there : w.instanceToken = .ok (some token))
    (hs : v.busy s) {options : AutoAttachOptions} {done : Performed} {u : σ}
    (hfinish : exec (mgr.finish (.autoAttach options)) s = (.ok done, u))
    (attached : done.attachment.attached = true) :
    v.idle u ∧ (v.attachment u).On token.instanceId := by
  obtain ⟨t, hcarry, -, hnew, -⟩ := h.carryOut (.autoAttach options) hs
  obtain ⟨u', hfinish', hu, hagree⟩ := h.exec_finish (.autoAttach options) hs
  rw [hcarry] at hfinish' hagree
  rw [hfinish', Prod.mk.injEq] at hfinish
  obtain ⟨hdone, rfl⟩ := hfinish
  refine ⟨hu, ?_⟩
  rw [hagree.attachment, hnew]
  exact Embedded.World.on_step_autoAttach there hdone attached

end Serves

/-- What becomes of a state when operations are performed one after the other, each by the manager of its
world. -/
def performAll (mgr : Embedded.World → Manager (StateM σ)) (steps : List (Embedded.World × Operation))
    (s : σ) : σ :=
  steps.foldl (fun s step => (exec ((mgr step.1).perform step.2) s).2) s

section Runs

variable {mgr : Embedded.World → Manager (StateM σ)} {v : View σ} {alone : Prop} {s : σ}
  {steps : List (Embedded.World × Operation)} {instanceId : Text}

/-- The instance stays on record in a run of operations that leave the machine attached. -/
theorem on_performAll (serves : ∀ w, (mgr w).Serves w v alone) (stays : ∀ step ∈ steps, step.2.Stays)
    (hs : v.idle s) (on : (v.attachment s).On instanceId) :
    v.idle (performAll mgr steps s) ∧ (v.attachment (performAll mgr steps s)).On instanceId := by
  induction steps generalizing s with
  | nil => exact ⟨hs, on⟩
  | cons step steps ih =>
    obtain ⟨hstep, hrest⟩ := List.forall_mem_cons.mp stays
    obtain ⟨t, hexec, ht, hattachment, -⟩ := (serves step.1).perform step.2 hs
    rw [performAll, List.foldl_cons, hexec]
    refine ih hrest ht ?_
    rw [hattachment]
    exact Embedded.World.on_step hstep on _ _

/-- An instance that was attached by an operation that had the lock is turned down after such a run, if
the lock is granted then. It is granted where nobody else has a claim to it. -/
theorem turnsDown_of_finish (serves : ∀ w, (mgr w).Serves w v alone) {w w' : Embedded.World}
    {token token' : InstanceToken} (there : w.instanceToken = .ok (some token))
    (there' : w'.instanceToken = .ok (some token')) (same : token'.instanceId = token.instanceId)
    {options : AutoAttachOptions} (options' : AutoAttachOptions)
    (stays : ∀ step ∈ steps, step.2.Stays) (hs : v.busy s) {done : Performed} {u : σ}
    (hfinish : exec ((mgr w).finish (.autoAttach options)) s = (.ok done, u))
    (attached : done.attachment.attached = true) :
    (alone → (exec ((mgr w').start (.autoAttach options')) (performAll mgr steps u)).1 = .ok ()) ∧
      ((exec ((mgr w').start (.autoAttach options')) (performAll mgr steps u)).1 = .ok () →
        (mgr w').TurnsDown v (.autoAttach options') (.sameInstance token.instanceId)
          (performAll mgr steps u)) := by
  obtain ⟨hu, on⟩ := (serves w).on_of_finish there hs hfinish attached
  obtain ⟨hend, on⟩ := on_performAll serves stays hu on
  obtain ⟨-, -, -, -, -, hgate, -⟩ := (serves w').perform (.autoAttach options') hend
  rw [← same] at on ⊢
  exact ⟨hgate, (serves w').turnsDown there' on hend⟩

end Runs

end Manager

/-- The lock that an operation has taken on a machine stays with it, and as long as no other process
intrudes nobody else has a claim to it. -/
theorem Machine.busy_of_start {newName home : String} {w : Embedded.World} {op : Operation}
    {m t : Machine} (usable : Usable home m.tree)
    (h : exec ((manager newName home w).start op) m = (.ok (), t)) :
    (view home (m.intruder = none)).busy t := by
  have hattempt := FileLock.attempted_acquire (setup newName w) home m op.command
  replace h : exec ((FileLock.onMachine (setup newName w) home).acquire op.command) m =
      (.ok (), t) := h
  rw [h] at hattempt
  obtain ⟨haside, ⟨-, hhas, hquiet⟩ | ⟨f, hf⟩⟩ := hattempt
  · exact ⟨usable.of_aside haside, hhas, hquiet⟩
  · cases hf

/-- An instance is attached once, in memory as well as on a machine whose attachment and log can be read
and written, whatever is stored there to begin with. Services may be changed and the contract refreshed in
between, in other worlds and with any outcome. On a machine the second attempt needs the lock, which it is
granted unless another process intrudes. -/
theorem autoAttach_happens_once {w w' : Embedded.World} {token token' : InstanceToken}
    (there : w.instanceToken = .ok (some token)) (there' : w'.instanceToken = .ok (some token'))
    (same : token'.instanceId = token.instanceId) (options options' : AutoAttachOptions)
    {steps : List (Embedded.World × Operation)} (stays : ∀ step ∈ steps, step.2.Stays) :
    (∀ (e e₁ : Embedded) (done : Performed),
      exec ((Embedded.manager w).perform (.autoAttach options)) e = (.ok done, e₁) →
      done.attachment.attached = true →
      (Embedded.manager w').TurnsDown (Embedded.view True) (.autoAttach options')
        (.sameInstance token.instanceId) (Manager.performAll Embedded.manager steps e₁)) ∧
    ∀ (newName home : String) (m m₁ : Machine) (done : Performed), Machine.Usable home m.tree →
      exec ((Machine.manager newName home w).perform (.autoAttach options)) m = (.ok done, m₁) →
      done.attachment.attached = true →
      let mgr := Machine.manager newName home w'
      let m₂ := Manager.performAll (Machine.manager newName home) steps m₁
      (m.intruder = none → (exec (mgr.start (.autoAttach options')) m₂).1 = .ok ()) ∧
        ((exec (mgr.start (.autoAttach options')) m₂).1 = .ok () →
          mgr.TurnsDown (Machine.view home (m.intruder = none)) (.autoAttach options')
            (.sameInstance token.instanceId) m₂) := by
  constructor
  · intro e e₁ done hperform attached
    obtain ⟨-, t, -, hfinish⟩ := exec_bind_eq_ok.mp hperform
    obtain ⟨granted, turned⟩ := Manager.turnsDown_of_finish
      (fun w => Embedded.serves_manager w True) there there' same options' stays trivial hfinish
      attached
    exact turned (granted trivial)
  · intro newName home m m₁ done usable hperform attached
    obtain ⟨⟨⟩, t, hstart, hfinish⟩ := exec_bind_eq_ok.mp hperform
    exact Manager.turnsDown_of_finish (fun w => Machine.serves_manager w (m.intruder = none)) there
      there' same options' stays (Machine.busy_of_start usable hstart) hfinish attached

def Embedded.cloudWorld : World :=
  { pairWorld with instanceToken := .ok (some ⟨"i", "t"⟩) }

def Operation.cloud : Operation :=
  .autoAttach ⟨["a"], [], none⟩

/-- In this world a machine on which nothing has happened is attached. -/
theorem Manager.Serves.attaches_cloud {σ : Type} {mgr : Manager (StateM σ)} {v : View σ}
    {alone : Prop} {s : σ} (h : mgr.Serves Embedded.cloudWorld v alone) (hs : v.idle s)
    (free : alone) (fresh : v.attachment s = .unattached ∧ v.calls s = []) :
    ∃ done t, exec (mgr.perform .cloud) s = (.ok done, t) ∧ done.attachment.attached = true := by
  obtain ⟨t, hexec, -, -, -, hgate, -⟩ := h.perform .cloud hs
  rw [hgate free, fresh.1, fresh.2] at hexec
  have attached : (Embedded.cloudWorld.step .cloud (.ok ()) .unattached []).1.toOption.any
      (·.attachment.attached) = true := by decide +kernel
  rcases hstep : (Embedded.cloudWorld.step .cloud (.ok ()) .unattached []).1 with f | done
  · rw [hstep] at attached
    cases attached
  · rw [hstep] at hexec attached
    exact ⟨done, t, hexec, attached⟩

/-- Disabling `a`, and refreshing under a contract that has another name and grants `b` alone. -/
def onceSteps : List (Embedded.World × Operation) :=
  [(Embedded.pairWorld, .change .disable ["a"] true false),
    ({ Embedded.pairWorld with contracts := fun _ => .ok (some ⟨"l", ["b"]⟩) }, .refresh)]

theorem autoAttach_happens_once_cloud :
    (∃ done e, exec ((Embedded.manager Embedded.cloudWorld).perform .cloud) .empty = (.ok done, e) ∧
      (Embedded.manager Embedded.cloudWorld).TurnsDown (Embedded.view True)
        (.autoAttach ⟨[], ["b"], none⟩) (.sameInstance "i")
        (Manager.performAll Embedded.manager onceSteps e)) ∧
    ∃ done m, exec ((Machine.manager "event" "/pro" Embedded.cloudWorld).perform .cloud)
        .broken = (.ok done, m) ∧
      (Machine.manager "event" "/pro" Embedded.cloudWorld).TurnsDown
        (Machine.view "/pro" (Machine.broken.intruder = none)) (.autoAttach ⟨[], ["b"], none⟩)
        (.sameInstance "i") (Manager.performAll (Machine.manager "event" "/pro") onceSteps m) := by
  have there : Embedded.cloudWorld.instanceToken = .ok (some ⟨"i", "t"⟩) := rfl
  have stays : ∀ step ∈ onceSteps, step.2.Stays := by
    intro step hstep
    simp only [onceSteps, List.mem_cons, List.not_mem_nil, or_false] at hstep
    rcases hstep with rfl | rfl
    all_goals trivial
  obtain ⟨hmemory, hdisk⟩ :=
    autoAttach_happens_once there there rfl ⟨["a"], [], none⟩ ⟨[], ["b"], none⟩ stays
  constructor
  · obtain ⟨done, e, hexec, attached⟩ := (Embedded.serves_manager Embedded.cloudWorld
      True).attaches_cloud (s := .empty) (fun _ => rfl) trivial ⟨rfl, rfl⟩
    exact ⟨done, e, hexec, hmemory .empty e done hexec attached⟩
  · obtain ⟨done, m, hexec, attached⟩ := (Machine.serves_manager Embedded.cloudWorld
      _).attaches_cloud ⟨Machine.usable_broken, id⟩ Machine.alone_broken
        ⟨congrArg Attachment.ofStored Machine.stored_broken, rfl⟩
    obtain ⟨granted, turned⟩ :=
      hdisk "event" "/pro" .broken m done Machine.usable_broken hexec attached
    exact ⟨done, m, hexec, turned (granted rfl)⟩

end Subscription
