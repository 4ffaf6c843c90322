import Subscription.Manager.Basic
import Subscription.Proofs.Resolution.Sound

/-!
What operations store. A manager persists attachments when reading gives back what was last written and
nothing but writing changes it. The only attachment that an operation can store is then the one that its
resolution ends with, and since every resolution keeps attachments sound, every operation does, also one
that breaks off.
-/

namespace Subscription

variable {σ : Type}

namespace Manager

variable {mgr : Manager (StateM σ)} {view : σ → Attachment}

/-- A manager over a state in which there is a stored attachment: it is what reading finds, and only
writing changes it. -/
structure Persists (mgr : Manager (StateM σ)) (view : σ → Attachment) : Prop where
  reads : ∀ {s a t}, exec mgr.attachment s = (.ok a, t) → a = view s ∧ view t = view s
  readFails : ∀ {s f t}, exec mgr.attachment s = (.error f, t) → view t = view s
  writes : ∀ {a s t}, exec (mgr.storage.writeAttachment a) s = (.ok (), t) → view t = a
  writeFails : ∀ {a s f t}, exec (mgr.storage.writeAttachment a) s = (.error f, t) → view t = view s
  calls : ∀ s, view (mgr.calls.get.run s).2 = view s
  recorded : ∀ calls s, view ((mgr.calls.set calls).run s).2 = view s
  acquire : ∀ command, Keeps view (mgr.lock.acquire command)
  release : Keeps view mgr.lock.release
  contracts : ∀ token, Keeps view (mgr.contracts token)
  instanceToken : Keeps view mgr.instanceToken
  now : ∀ s, view (mgr.now.run s).2 = view s
  logs : ∀ op r, Keeps view (mgr.log op r)

def Resolves (mgr : Manager (StateM σ)) (op : Operation) (a : Attachment) (r : Resolution) : Prop :=
  ∃ s t, exec (mgr.resolve op a) s = (.ok r, t)

theorem Persists.keeps_settle (h : mgr.Persists view) {α : Type} (r : Resolving α) :
    Keeps view (mgr.settle r) :=
  keeps_bind (keeps_lift h.calls) fun _ =>
    keeps_bind (keeps_lift (h.recorded _)) fun _ => keeps_except _

theorem Persists.keeps_resolve (h : mgr.Persists view) (op : Operation) (a : Attachment) :
    Keeps view (mgr.resolve op a) := by
  refine keeps_bind (keeps_bind (keeps_lift h.now) fun _ => keeps_pure _) fun ctx => ?_
  cases op with
  | change action names assumeYes allowBeta => exact h.keeps_settle _
  | attach token autoEnable =>
    dsimp only
    split
    · exact keeps_bind (keeps_pure _) fun _ => h.keeps_settle _
    · exact keeps_bind (h.contracts token) fun _ => h.keeps_settle _
  | autoAttach options =>
    refine keeps_bind h.instanceToken fun token => keeps_bind (h.keeps_settle _) fun arrived => ?_
    cases arrived with
    | inl r => exact keeps_pure r
    | inr arrival => exact keeps_bind (h.contracts _) fun _ => h.keeps_settle _
  | detach => exact h.keeps_settle _
  | refresh =>
    dsimp only
    split
    · exact keeps_bind (h.contracts _) fun _ => h.keeps_settle _
    · exact keeps_bind (keeps_pure _) fun _ => h.keeps_settle _

/-- An operation leaves the stored attachment alone, or stores the one it was resolved to. -/
theorem Persists.carryOut (h : mgr.Persists view) (op : Operation) (s : σ) :
    view (exec (mgr.carryOut op) s).2 = view s ∨
      ∃ r, mgr.Resolves op (view s) r ∧ r.next = some (view (exec (mgr.carryOut op) s).2) := by
  rw [Manager.carryOut, exec_bind]
  rcases hread : exec mgr.attachment s with ⟨_ | a, s₁⟩
  · exact Or.inl (h.readFails hread)
  · obtain ⟨rfl, hs₁⟩ := h.reads hread
    dsimp only
    rw [exec_bind]
    have hkeeps := h.keeps_resolve op (view s) s₁
    rcases hresolve : exec (mgr.resolve op (view s)) s₁ with ⟨_ | r, s₂⟩
    · rw [hresolve] at hkeeps
      exact Or.inl (hkeeps.trans hs₁)
    · rw [hresolve] at hkeeps
      have hrest : Keeps view (do mgr.log op r.report; return ⟨r.report, r.attachment (view s)⟩ :
          ExceptT Fault (StateM σ) Performed) :=
        keeps_bind (h.logs op r.report) fun _ => keeps_pure _
      -- Up to here nothing was stored, and of what follows only the writing can change that.
      cases hnext : r.next with
      | none =>
        left
        simp only [hnext]
        exact (hrest s₂).trans (hkeeps.trans hs₁)
      | some next =>
        simp only [hnext]
        rw [exec_bind]
        rcases hwrite : exec (mgr.storage.writeAttachment next) s₂ with ⟨_ | _, s₃⟩
        · exact Or.inl ((h.writeFails hwrite).trans (hkeeps.trans hs₁))
        · right
          refine ⟨r, ⟨s₁, s₂, hresolve⟩, ?_⟩
          rw [hnext, ← h.writes hwrite]
          exact congrArg some (hrest s₃).symm

theorem view_thenRelease {α ν : Type} {view : σ → ν} {lock : OperationLock (StateM σ)}
    (h : Keeps view lock.release) (body : ExceptT Fault (StateM σ) α) (s : σ) :
    view (exec (lock.thenRelease body) s).2 = view (exec body s).2 := by
  rw [OperationLock.thenRelease, exec_bind]
  show view (exec (do lock.release; ExceptT.mk (pure (exec body s).1)) (exec body s).2).2 = _
  exact keeps_bind h (fun _ => keeps_except _) _

/-- Performing an operation, whatever comes of it. -/
theorem Persists.perform (h : mgr.Persists view) (op : Operation) (s : σ) :
    view (exec (mgr.perform op) s).2 = view s ∨
      ∃ r, mgr.Resolves op (view s) r ∧ r.next = some (view (exec (mgr.perform op) s).2) := by
  have hstart := h.acquire op.command s
  rw [Manager.perform, exec_bind]
  rcases hs : exec (mgr.start op) s with ⟨_ | _, s₁⟩
  · left
    rw [← hstart]
    exact congrArg (fun r => view r.2) hs.symm
  · have hs₁ : view s₁ = view s := by
      rw [← hstart]
      exact congrArg (fun r => view r.2) hs.symm
    dsimp only
    rw [Manager.finish, view_thenRelease h.release, ← hs₁]
    exact h.carryOut op s₁

/-! ### Soundness -/

theorem yields_settle {α : Type} {r : Resolving α} {P : α → Prop} (h : Yields r P) :
    Yields (mgr.settle r) P := by
  refine yields_bind' fun past => yields_bind' fun _ => ?_
  intro s a t hexec
  have hresult : (exec r past).1 = .ok a := congrArg Prod.fst hexec
  exact h past a _ (Prod.ext hresult rfl)

theorem sound_resolve (wf : mgr.catalog.WellFormed) {a : Attachment}
    (ha : a.Sound mgr.catalog mgr.series) (op : Operation) :
    Yields (mgr.resolve op a) fun r => (r.attachment a).Sound mgr.catalog mgr.series := by
  have hcontext : Yields (mgr.context a) fun ctx =>
      ctx.catalog = mgr.catalog ∧ ctx.series = mgr.series ∧ ctx.state = a :=
    yields_bind' fun _ => yields_pure ⟨rfl, rfl, rfl⟩
  refine yields_bind hcontext fun ctx hctx => ?_
  obtain ⟨hcatalog, hseries, rfl⟩ := hctx
  rw [← hcatalog] at wf
  rw [← hcatalog, ← hseries] at ha ⊢
  have inv := Context.invariant_sound wf
  cases op with
  | change action names assumeYes allowBeta => exact yields_settle (inv.request ha _)
  | attach token autoEnable =>
    have hattach : ∀ contract, Yields (mgr.settle (resolveAttach ctx token autoEnable contract))
        fun r => (r.attachment ctx.state).Sound ctx.catalog ctx.series :=
      fun contract => yields_settle (inv.attach ha token autoEnable contract)
    dsimp only
    split
    · exact yields_bind' hattach
    · exact yields_bind' hattach
  | autoAttach options =>
    refine yields_bind' fun token =>
      yields_bind (yields_settle (inv.arrive ha token)) fun arrived harrived => ?_
    cases arrived with
    | inl r => exact yields_pure harrived
    | inr arrival =>
      exact yields_bind' fun contract =>
        yields_settle (inv.enrol ha options harrived contract)
  | detach =>
    exact fun s r t hexec => (yields_settle (inv.detach ha) s r t hexec).1
  | refresh =>
    have hrefresh : ∀ contract, Yields (mgr.settle (resolveRefresh ctx contract))
        fun r => (r.attachment ctx.state).Sound ctx.catalog ctx.series :=
      fun contract => yields_settle (inv.refresh ha contract)
    dsimp only
    split
    · exact yields_bind' hrefresh
    · exact yields_bind' hrefresh

/-- Every operation takes a sound stored attachment to a sound one, also when it breaks off. -/
theorem Persists.sound (h : mgr.Persists view) (wf : mgr.catalog.WellFormed) {s : σ}
    (hs : (view s).Sound mgr.catalog mgr.series) (op : Operation) :
    (view (exec (mgr.perform op) s).2).Sound mgr.catalog mgr.series := by
  rcases h.perform op s with hsame | ⟨r, ⟨s₁, t₁, hresolve⟩, hnext⟩
  · rw [hsame]
    exact hs
  · have hr := sound_resolve wf hs op s₁ r t₁ hresolve
    have hview : r.attachment (view s) = view (exec (mgr.perform op) s).2 := by
      rw [Resolution.attachment, hnext]
      rfl
    exact hview ▸ hr

end Manager

end Subscription
