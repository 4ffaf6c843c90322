import Subscription.Manager.Embedded
import Subscription.Proofs.Reasoning
import Subscription.Proofs.Resolution.Resolver

/-!
Managers held against the resolutions. What an operation does to a machine can be told without any
store: look up what has to be known, resolve, and take over the next attachment if there is one. A
manager serves a world when its store reads and writes without failing, and what it looks up is what the
world answers. Whatever such a manager does while it has the lock, the resolution does to the list of
calls; what is stored changes in the one step that writes.
-/

namespace Subscription

variable {σ α β : Type}

/-! ### Operations without a store -/

namespace Embedded.World

def context (w : World) (a : Attachment) : Context :=
  ⟨w.catalog, w.handler, w.series, w.now, a⟩

/-- The resolution that an operation comes to once all has been looked up that comes before it. No
contract is looked up for a machine that is attached already, or that has none to refresh. -/
def resolver (w : World) (op : Operation) (a : Attachment) : Except Fault Resolver :=
  match op with
  | .change action names assumeYes allowBeta =>
    .ok (.request ⟨action, names, assumeYes, allowBeta || w.allowBeta⟩)
  | .attach token autoEnable =>
    (if a.attached then .ok none else w.contracts token).map (.attach token autoEnable)
  | .detach => .ok .detach
  | .refresh =>
    (match a.contract with
      | some record => w.contracts record.token
      | none => .ok none).map .refresh
  | .autoAttach options => w.instanceToken.map (.autoAttach options · w.contracts)

def resolving (w : World) (op : Operation) (a : Attachment) : Resolving Resolution := do
  let t ← w.resolver op a
  t.run (w.context a)

/-- What comes of an operation, and the attachment and the calls after it. It ends at once when the gate
before it is shut, and when it ends without a resolution the attachment stands. -/
def step (w : World) (op : Operation) (gate : Except Fault Unit) (a : Attachment) (past : List Call) :
    Except Fault Performed × Attachment × List Call :=
  match gate with
  | .error f => (.error f, a, past)
  | .ok () =>
    match exec (w.resolving op a) past with
    | (.error f, past) => (.error f, a, past)
    | (.ok r, past) => (.ok ⟨r.report, r.attachment a⟩, r.attachment a, past)

/-- A step is refused at the gate, breaks off in its resolution, or takes over what that has come to. -/
theorem step_cases (w : World) (op : Operation) (gate : Except Fault Unit) (a : Attachment)
    (past : List Call) :
    (∃ f, gate = .error f ∧ w.step op gate a past = (.error f, a, past)) ∨
    (∃ f past', gate = .ok () ∧ exec (w.resolving op a) past = (.error f, past') ∧
      w.step op gate a past = (.error f, a, past')) ∨
    ∃ r past', gate = .ok () ∧ exec (w.resolving op a) past = (.ok r, past') ∧
      w.step op gate a past = (.ok ⟨r.report, r.attachment a⟩, r.attachment a, past') := by
  unfold step
  cases gate with
  | error f => exact Or.inl ⟨f, rfl, rfl⟩
  | ok =>
    rcases exec (w.resolving op a) past with ⟨f | r, past'⟩
    · exact Or.inr (Or.inl ⟨f, past', rfl, rfl, rfl⟩)
    · exact Or.inr (Or.inr ⟨r, past', rfl, rfl, rfl⟩)

theorem lift_map_bind {γ : Type} (e : Except Fault α) (g : α → β) (f : β → Resolving γ) :
    (do let b ← (e.map g : Except Fault β); f b) = (do let a ← e; f (g a) : Resolving γ) := by
  cases e <;> rfl

end Embedded.World

/-! ### Managers that serve a world -/

namespace Manager

/-- What counts in the states of a manager. -/
structure View (σ : Type) where
  /-- Fit to start an operation. -/
  idle : σ → Prop
  /-- Fit to go on with an operation that has the lock. -/
  busy : σ → Prop
  stored : σ → Option String
  calls : σ → List Call

/-- The attachment that the stored text stands for. -/
def View.attachment (v : View σ) (s : σ) : Attachment :=
  .ofStored ((v.stored s).bind Json.parse)

def View.Agree (v : View σ) (s t : σ) : Prop :=
  v.stored t = v.stored s ∧ v.calls t = v.calls s

theorem View.Agree.attachment {v : View σ} {s t : σ} (h : v.Agree s t) :
    v.attachment t = v.attachment s := by
  rw [View.attachment, h.1]
  rfl

/-- A manager that takes its answers from a world, and whose store does not fail. Only the lock can
refuse, and it does not when nobody else has a claim to it. -/
structure Serves (mgr : Manager (StateM σ)) (w : Embedded.World) (v : View σ) (alone : Prop) :
    Prop where
  catalog : mgr.catalog = w.catalog
  series : mgr.series = w.series
  allowBeta : mgr.allowBeta = w.allowBeta
  handler : mgr.handler = w.handler
  now : mgr.now = pure w.now
  acquire : ∀ {s}, v.idle s → ∀ command, ∃ t, v.Agree s t ∧
    ((exec (mgr.lock.acquire command) s = (.ok (), t) ∧ v.busy t) ∨
      ¬alone ∧ ∃ f, exec (mgr.lock.acquire command) s = (.error f, t) ∧ v.idle t)
  release : ∀ {s}, v.busy s →
    ∃ t, exec mgr.lock.release s = (.ok (), t) ∧ v.idle t ∧ v.Agree s t
  reads : ∀ {s}, v.idle s ∨ v.busy s → exec mgr.attachment s = (.ok (v.attachment s), s)
  writes : ∀ {s}, v.busy s → ∀ a, ∃ t, exec (mgr.storage.writeAttachment a) s = (.ok (), t) ∧
    v.busy t ∧ v.attachment t = a ∧ v.calls t = v.calls s
  contracts : ∀ {s}, v.busy s → ∀ token,
    ∃ t, exec (mgr.contracts token) s = (w.contracts token, t) ∧ v.busy t ∧ v.Agree s t
  instanceToken : ∀ {s}, v.busy s →
    ∃ t, exec mgr.instanceToken s = (w.instanceToken, t) ∧ v.busy t ∧ v.Agree s t
  calls : ∀ s, mgr.calls.get.run s = (v.calls s, s)
  recorded : ∀ {s}, v.busy s → ∀ calls, v.busy ((mgr.calls.set calls).run s).2 ∧
    v.stored ((mgr.calls.set calls).run s).2 = v.stored s ∧
    v.calls ((mgr.calls.set calls).run s).2 = calls
  logs : ∀ {s}, v.busy s → ∀ op r,
    ∃ t, exec (mgr.log op r) s = (.ok (), t) ∧ v.busy t ∧ v.Agree s t

/-! ### Simulation -/

/-- While a manager has the lock, a computation makes of the calls what a resolution makes of them, with
the same result, and leaves alone what is stored. -/
def Simulates (v : View σ) (r : ExceptT Fault (StateM σ) α) (r' : Resolving α) : Prop :=
  ∀ s, v.busy s → ∃ t, exec r s = ((exec r' (v.calls s)).1, t) ∧ v.busy t ∧
    v.stored t = v.stored s ∧ v.calls t = (exec r' (v.calls s)).2

section Simulates

variable {v : View σ}

theorem simulates_pure (a : α) : Simulates v (pure a) (pure a) :=
  fun s hs => ⟨s, rfl, hs, rfl, rfl⟩

theorem simulates_bind {r : ExceptT Fault (StateM σ) α} {r' : Resolving α}
    {f : α → ExceptT Fault (StateM σ) β} {f' : α → Resolving β} (h : Simulates v r r')
    (hf : ∀ a, Simulates v (f a) (f' a)) : Simulates v (r >>= f) (r' >>= f') := by
  intro s hs
  obtain ⟨t, hexec, ht, hstored, hcalls⟩ := h s hs
  rw [exec_bind, exec_bind, hexec]
  rcases hr : exec r' (v.calls s) with ⟨e | a, past⟩
  · rw [hr] at hcalls
    exact ⟨t, rfl, ht, hstored, hcalls⟩
  · rw [hr] at hcalls
    obtain ⟨u, hexec', hu, hstored', hcalls'⟩ := hf a t ht
    rw [show v.calls t = past from hcalls] at hexec' hcalls'
    exact ⟨u, hexec', hu, hstored'.trans hstored, hcalls'⟩

theorem simulates_lift {r : ExceptT Fault (StateM σ) α} {e : Except Fault α}
    (h : ∀ s, v.busy s → ∃ t, exec r s = (e, t) ∧ v.busy t ∧ v.Agree s t) :
    Simulates v r (liftM e) := by
  intro s hs
  obtain ⟨t, hexec, ht, hstored, hcalls⟩ := h s hs
  simp only [exec_liftExcept]
  exact ⟨t, hexec, ht, hstored, hcalls⟩

end Simulates

namespace Serves

variable {mgr : Manager (StateM σ)} {w : Embedded.World} {v : View σ} {alone : Prop} {s : σ}

theorem simulates_settle (h : mgr.Serves w v alone) (r : Resolving α) :
    Simulates v (mgr.settle r) r := by
  intro s hs
  obtain ⟨hbusy, hstored, hcalls⟩ := h.recorded hs (exec r (v.calls s)).2
  refine ⟨_, ?_, hbusy, hstored, hcalls⟩
  show (do
    let past ← mgr.calls.get
    mgr.calls.set (exec r past).2
    return (exec r past).1 : StateM σ (Except Fault α)).run s = _
  rw [StateT.run_bind, h.calls]
  rfl

theorem exec_context (h : mgr.Serves w v alone) (a : Attachment) (s : σ) :
    exec (mgr.context a) s = (.ok (w.context a), s) := by
  rw [Manager.context, h.now, h.catalog, h.series, h.handler]
  rfl

/-- Resolving an operation is the resolution with the look-ups put in. -/
theorem simulates_resolve (h : mgr.Serves w v alone) (op : Operation) (a : Attachment) :
    Simulates v (mgr.resolve op a) (w.resolving op a) := by
  intro s hs
  rw [Manager.resolve, exec_bind, h.exec_context]
  revert s
  cases op with
  | change action names assumeYes allowBeta =>
    rw [h.allowBeta]
    exact h.simulates_settle _
  | attach token autoEnable =>
    rw [Embedded.World.resolving, Embedded.World.resolver, Embedded.World.lift_map_bind]
    dsimp only
    split
    · exact h.simulates_settle _
    · exact simulates_bind (simulates_lift fun s hs => h.contracts hs token) fun contract =>
        h.simulates_settle _
  | detach => exact h.simulates_settle _
  | refresh =>
    rw [Embedded.World.resolving, Embedded.World.resolver, Embedded.World.lift_map_bind]
    cases a.contract with
    | none => exact h.simulates_settle _
    | some record =>
      exact simulates_bind (simulates_lift fun s hs => h.contracts hs _) fun contract =>
        h.simulates_settle _
  | autoAttach options =>
    rw [Embedded.World.resolving, Embedded.World.resolver, Embedded.World.lift_map_bind]
    refine simulates_bind (simulates_lift fun s hs => h.instanceToken hs) fun token =>
      simulates_bind (h.simulates_settle _) fun arrived => ?_
    cases arrived with
    | inl r => exact simulates_pure r
    | inr arrival =>
      exact simulates_bind (simulates_lift fun s hs => h.contracts hs _) fun contract =>
        h.simulates_settle _

/-! ### Whole operations -/

theorem exec_thenRelease (lock : OperationLock (StateM σ)) (body : ExceptT Fault (StateM σ) α)
    (s : σ) : exec (lock.thenRelease body) s =
      exec (do lock.release; ExceptT.mk (pure (exec body s).1)) (exec body s).2 := rfl

/-- What an operation does while it has the lock. -/
theorem carryOut (h : mgr.Serves w v alone) (op : Operation) (hs : v.busy s) :
    ∃ t, exec (mgr.carryOut op) s = ((w.step op (.ok ()) (v.attachment s) (v.calls s)).1, t) ∧
      v.busy t ∧ v.attachment t = (w.step op (.ok ()) (v.attachment s) (v.calls s)).2.1 ∧
      v.calls t = (w.step op (.ok ()) (v.attachment s) (v.calls s)).2.2 ∧
      ∀ f, (exec (mgr.carryOut op) s).1 = .error f → v.stored t = v.stored s := by
  obtain ⟨t, hexec, ht, hstored, hcalls⟩ := h.simulates_resolve op (v.attachment s) s hs
  have hattachment : v.attachment t = v.attachment s := by rw [View.attachment, hstored]; rfl
  rw [Manager.carryOut, exec_bind, h.reads (Or.inr hs)]
  dsimp only
  rw [exec_bind, hexec]
  unfold Embedded.World.step
  rcases hr : exec (w.resolving op (v.attachment s)) (v.calls s) with ⟨f | r, past⟩
  · rw [hr] at hcalls
    exact ⟨t, rfl, ht, hattachment, hcalls, fun _ _ => hstored⟩
  · rw [hr] at hcalls
    cases hnext : r.next with
    | none =>
      -- Nothing is written, as the attachment of the resolution is the one that is stored.
      obtain ⟨u, hlog, hu, hagree⟩ := h.logs ht op r.report
      refine ⟨u, ?_, hu, ?_, hagree.2.trans hcalls, fun _ _ => hagree.1.trans hstored⟩
      · simp only [hnext, exec_bind, hlog, exec_pure]
      · show v.attachment u = r.attachment (v.attachment s)
        rw [View.attachment, hagree.1, Resolution.attachment, hnext]
        exact hattachment
    | some next =>
      obtain ⟨t', hwrite, ht', hnew, hcalls'⟩ := h.writes ht next
      obtain ⟨u, hlog, hu, hagree⟩ := h.logs ht' op r.report
      have hdone : exec (do
          mgr.storage.writeAttachment next
          mgr.log op r.report
          return (⟨r.report, r.attachment (v.attachment s)⟩ : Performed)) t =
          (.ok ⟨r.report, r.attachment (v.attachment s)⟩, u) := by
        simp only [exec_bind, hwrite, hlog, exec_pure]
      refine ⟨u, ?_, hu, ?_, ?_, fun f hf => ?_⟩
      · simp only [hnext]
        exact hdone
      · show v.attachment u = r.attachment (v.attachment s)
        rw [View.attachment, hagree.1, Resolution.attachment, hnext]
        exact hnew
      · rw [hagree.2, hcalls']
        exact hcalls
      · -- Once the attachment is written, nothing can fail any more.
        simp only [hnext] at hf
        rw [show exec _ t = _ from hdone] at hf
        cases hf

theorem exec_finish (h : mgr.Serves w v alone) (op : Operation) (hs : v.busy s) :
    ∃ u, exec (mgr.finish op) s = ((exec (mgr.carryOut op) s).1, u) ∧ v.idle u ∧
      v.Agree (exec (mgr.carryOut op) s).2 u := by
  obtain ⟨t, hcarry, ht, -⟩ := h.carryOut op hs
  obtain ⟨u, hrelease, hu, hagree⟩ := h.release ht
  refine ⟨u, ?_, hu, by rwa [hcarry]⟩
  rw [Manager.finish, exec_thenRelease, hcarry, exec_bind, hrelease]
  rfl

/-- An operation is carried out between taking the lock and giving it back, or the lock refuses. -/
theorem exec_perform (h : mgr.Serves w v alone) (op : Operation) (hs : v.idle s) :
    (∃ t, exec (mgr.start op) s = (.ok (), t) ∧ v.busy t ∧ v.Agree s t ∧
      ∃ u, exec (mgr.perform op) s = ((exec (mgr.carryOut op) t).1, u) ∧ v.idle u ∧
        v.Agree (exec (mgr.carryOut op) t).2 u) ∨
    (¬alone ∧ ∃ f t, exec (mgr.start op) s = (.error f, t) ∧
      exec (mgr.perform op) s = (.error f, t) ∧ v.idle t ∧ v.Agree s t) := by
  obtain ⟨t, hagree, ⟨hstart, ht⟩ | ⟨hcrowd, f, hstart, ht⟩⟩ := h.acquire hs op.command
  · replace hstart : exec (mgr.start op) s = (.ok (), t) := hstart
    obtain ⟨u, hfinish, hu, hagree'⟩ := h.exec_finish op ht
    refine Or.inl ⟨t, hstart, ht, hagree, u, ?_, hu, hagree'⟩
    rw [Manager.perform, exec_bind, hstart]
    exact hfinish
  · replace hstart : exec (mgr.start op) s = (.error f, t) := hstart
    refine Or.inr ⟨hcrowd, f, t, hstart, ?_, ht, hagree⟩
    rw [Manager.perform, exec_bind, hstart]

/-- With the lock, an operation comes to what carrying it out comes to. If that leaves everything as it was,
so does the operation. -/
theorem perform_of_granted (h : mgr.Serves w v alone) (op : Operation) (hs : v.idle s)
    (granted : (exec (mgr.start op) s).1 = .ok ()) :
    ∃ t, exec (mgr.start op) s = (.ok (), t) ∧ v.busy t ∧ v.Agree s t ∧
      ∀ {result t'}, exec (mgr.carryOut op) t = (result, t') → v.Agree t t' →
        (exec (mgr.perform op) s).1 = result ∧ v.Agree s (exec (mgr.perform op) s).2 := by
  rcases h.exec_perform op hs with ⟨t, hstart, ht, hagree, u, hexec, -, hagree'⟩ | ⟨-, f, t, hstart, -⟩
  · refine ⟨t, hstart, ht, hagree, fun {result t'} hcarry hkept => ?_⟩
    rw [hcarry] at hexec hagree'
    rw [hexec]
    exact ⟨rfl, hagree'.1.trans (hkept.1.trans hagree.1), hagree'.2.trans (hkept.2.trans hagree.2)⟩
  · rw [hstart] at granted
    cases granted

/-- An operation is a step on the attachment and the calls, with the lock as its gate. When it breaks
off, the stored text is the one that was there before. -/
theorem perform (h : mgr.Serves w v alone) (op : Operation) (hs : v.idle s) :
    ∃ t, exec (mgr.perform op) s =
        ((w.step op (exec (mgr.start op) s).1 (v.attachment s) (v.calls s)).1, t) ∧
      v.idle t ∧
      v.attachment t = (w.step op (exec (mgr.start op) s).1 (v.attachment s) (v.calls s)).2.1 ∧
      v.calls t = (w.step op (exec (mgr.start op) s).1 (v.attachment s) (v.calls s)).2.2 ∧
      (alone → (exec (mgr.start op) s).1 = .ok ()) ∧
      ∀ f, (exec (mgr.perform op) s).1 = .error f → v.stored t = v.stored s := by
  rcases h.exec_perform op hs with ⟨t, hstart, ht, hagree, u, hexec, hu, hagree'⟩ |
    ⟨hcrowd, f, t, hstart, hexec, ht, hagree⟩
  · obtain ⟨t', hcarry, -, hnew, hcalls, hkept⟩ := h.carryOut op ht
    -- The step starts from what was there before the lock was taken.
    rw [hagree.attachment, hagree.2] at hcarry hnew hcalls
    rw [hcarry] at hexec hagree'
    rw [hstart, hexec]
    refine ⟨u, rfl, hu, hagree'.attachment.trans hnew, hagree'.2.trans hcalls, fun _ => rfl,
      fun f hf => ?_⟩
    rw [hagree'.1, hkept f (by rw [hcarry]; exact hf), hagree.1]
  · rw [hstart, hexec]
    exact ⟨t, rfl, ht, hagree.attachment, hagree.2, fun halone => absurd halone hcrowd,
      fun _ _ => hagree.1⟩

end Serves

/-! ### Runs -/

/-- Performs operations one after the other, each by the manager of its world, and asks after each what
is stored. -/
def runAll (mgr : Embedded.World → Manager (StateM σ)) :
    List (Embedded.World × Operation) → σ → List (Except Fault Performed × Except Fault Attachment)
  | [], _ => []
  | (w, op) :: steps, s =>
    let (result, s) := exec ((mgr w).perform op) s
    let (attachment, s) := exec (mgr w).attachment s
    (result, attachment) :: runAll mgr steps s

end Manager

/-- The steps of a run without a store, with a gate before each. -/
def Embedded.World.stepAll : List ((Embedded.World × Operation) × Except Fault Unit) → Attachment →
    List Call → List (Except Fault Performed × Except Fault Attachment)
  | [], _, _ => []
  | ((w, op), gate) :: steps, a, past =>
    let (result, a, past) := w.step op gate a past
    (result, .ok a) :: stepAll steps a past

/-- A run of managers that serve their worlds is a fold of the steps. The gates are open when nobody else
has a claim to the lock. -/
theorem Manager.runAll_eq {mgr : Embedded.World → Manager (StateM σ)} {v : View σ} {alone : Prop}
    (serves : ∀ w, (mgr w).Serves w v alone) (steps : List (Embedded.World × Operation)) {s : σ}
    (hs : v.idle s) :
    ∃ gates : List (Except Fault Unit), gates.length = steps.length ∧
      (alone → ∀ g ∈ gates, g = .ok ()) ∧
      runAll mgr steps s =
        Embedded.World.stepAll (steps.zip gates) (v.attachment s) (v.calls s) := by
  induction steps generalizing s with
  | nil => exact ⟨[], rfl, fun _ => by simp, rfl⟩
  | cons step steps ih =>
    obtain ⟨w, op⟩ := step
    obtain ⟨t, hexec, ht, hattachment, hcalls, hgate, -⟩ := (serves w).perform op hs
    obtain ⟨gates, hlength, hopen, hrest⟩ := ih ht
    refine ⟨(exec ((mgr w).start op) s).1 :: gates, by simp [hlength], fun halone g hg => ?_, ?_⟩
    · rcases List.mem_cons.mp hg with rfl | hg
      · exact hgate halone
      · exact hopen halone g hg
    · rw [runAll, hexec]
      simp only [(serves w).reads (Or.inl ht), hrest]
      rw [List.zip_cons_cons, Embedded.World.stepAll, hattachment, hcalls]

end Subscription
