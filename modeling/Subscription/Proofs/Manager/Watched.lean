import Subscription.Manager.Basic
import Subscription.Proofs.Reasoning

/-!
Managers under observation. Whatever a manager asks of those it works with is noted down, each time
together with the state in which it asks. Being watched makes no difference to what it does. A manager
looks up contracts and calls the handler only to resolve an operation, and resolving one never goes to the
store, the log or the lock.
-/

namespace Subscription

variable {σ α β : Type}

/-- What a manager asks of those it works with. -/
inductive Event where
  | acquire (command : Text)
  | release
  | read (name : String)
  | write (name : String) (value : Json)
  | append (log line : String)
  | contract (token : Text)
  | instanceToken
  | called (calls : List Call)

def Event.Resolves : Event → Prop
  | .contract _ | .instanceToken | .called _ => True
  | .acquire _ | .release | .read _ | .write .. | .append .. => False

structure Moment (σ : Type) where
  event : Event
  state : σ

/-- A state, and what was asked on the way to it. -/
structure Watched (σ : Type) where
  state : σ
  trace : List (Moment σ)

def Watched.noting (events : List Event) (x : StateM σ α) : StateM (Watched σ) α := fun w =>
  let (a, s) := x.run w.state
  (a, ⟨s, w.trace ++ events.map (⟨·, w.state⟩)⟩)

def Watched.asking (e : Event) (r : ExceptT Fault (StateM σ) α) :
    ExceptT Fault (StateM (Watched σ)) α :=
  ExceptT.mk (noting [e] r.run)

open Watched in
def Manager.watched (mgr : Manager (StateM σ)) : Manager (StateM (Watched σ)) where
  catalog := mgr.catalog
  series := mgr.series
  allowBeta := mgr.allowBeta
  handler := mgr.handler
  calls.get := noting [] mgr.calls.get
  calls.set calls := noting [.called calls] (mgr.calls.set calls)
  storage.read name := asking (.read name) (mgr.storage.read name)
  storage.write name value := asking (.write name value) (mgr.storage.write name value)
  storage.append log line := asking (.append log line) (mgr.storage.append log line)
  lock.acquire command := asking (.acquire command) (mgr.lock.acquire command)
  lock.release := asking .release mgr.lock.release
  contracts token := asking (.contract token) (mgr.contracts token)
  instanceToken := asking .instanceToken mgr.instanceToken
  now := noting [] mgr.now
  nextEvent := mgr.nextEvent.map (noting [])

/-! ### Watched computations -/

def Adds (r' : ExceptT Fault (StateM (Watched σ)) α) (r : ExceptT Fault (StateM σ) α) (s : σ)
    (notes : List (Moment σ)) : Prop :=
  ∀ trace, exec r' ⟨s, trace⟩ = ((exec r s).1, ⟨(exec r s).2, trace ++ notes⟩)

section Adds

variable {r' : ExceptT Fault (StateM (Watched σ)) α} {r : ExceptT Fault (StateM σ) α}
  {f' : α → ExceptT Fault (StateM (Watched σ)) β} {f : α → ExceptT Fault (StateM σ) β} {s t : σ}
  {notes notes' : List (Moment σ)}

theorem adds_pure (a : α) (s : σ) : Adds (pure a) (pure a) s [] := by
  intro trace
  rw [List.append_nil]
  rfl

theorem adds_except (e : Except Fault α) (s : σ) :
    Adds (ExceptT.mk (pure e)) (ExceptT.mk (pure e)) s [] := by
  intro trace
  rw [List.append_nil]
  rfl

theorem adds_asking (e : Event) (r : ExceptT Fault (StateM σ) α) (s : σ) :
    Adds (Watched.asking e r) r s [⟨e, s⟩] :=
  fun _ => rfl

theorem adds_noting (events : List Event) (x : StateM σ α) (s : σ) :
    Adds (liftM (Watched.noting events x)) (liftM x) s (events.map (⟨·, s⟩)) :=
  fun _ => rfl

theorem Adds.bind {a : α} (hr : Adds r' r s notes) (h : exec r s = (.ok a, t))
    (hf : Adds (f' a) (f a) t notes') : Adds (r' >>= f') (r >>= f) s (notes ++ notes') := by
  intro trace
  rw [exec_bind, exec_bind, hr, h, ← List.append_assoc]
  exact hf (trace ++ notes)

theorem Adds.bind_error {e : Fault} (hr : Adds r' r s notes) (h : exec r s = (.error e, t)) :
    Adds (r' >>= f') (r >>= f) s notes := by
  intro trace
  rw [exec_bind, exec_bind, hr, h]

theorem Adds.bind_silent (hr : Adds r' r s notes) (hf : ∀ a t, Adds (f' a) (f a) t []) :
    Adds (r' >>= f') (r >>= f) s notes := by
  rcases hexec : exec r s with ⟨e | a, t⟩
  · exact hr.bind_error hexec
  · rw [← List.append_nil notes]
    exact hr.bind hexec (hf a t)

end Adds

def Preserves (I : σ → Prop) (r : ExceptT Fault (StateM σ) α) : Prop :=
  ∀ s, I s → I (exec r s).2

theorem preserves_pure {I : σ → Prop} (a : α) :
    Preserves I (pure a : ExceptT Fault (StateM σ) α) :=
  fun _ hs => hs

theorem preserves_bind {I : σ → Prop} {r : ExceptT Fault (StateM σ) α}
    {f : α → ExceptT Fault (StateM σ) β} (hr : Preserves I r) (hf : ∀ a, Preserves I (f a)) :
    Preserves I (r >>= f) := by
  intro s hs
  have ht := hr s hs
  rw [exec_bind]
  rcases hexec : exec r s with ⟨e | a, t⟩
  all_goals rw [hexec] at ht
  · exact ht
  · exact hf a t ht

/-- Among certain states a watched computation does what the computation itself does, stays among them,
and adds notes of a certain kind only. -/
def Notes (I : σ → Prop) (P : Event → Prop) (r' : ExceptT Fault (StateM (Watched σ)) α)
    (r : ExceptT Fault (StateM σ) α) : Prop :=
  ∀ s, I s → I (exec r s).2 ∧ ∃ notes, Adds r' r s notes ∧ ∀ x ∈ notes, P x.event ∧ I x.state

section Notes

variable {I : σ → Prop} {P : Event → Prop} {r' : ExceptT Fault (StateM (Watched σ)) α}
  {r : ExceptT Fault (StateM σ) α} {f' : α → ExceptT Fault (StateM (Watched σ)) β}
  {f : α → ExceptT Fault (StateM σ) β}

theorem notes_pure (a : α) : Notes I P (pure a) (pure a) :=
  fun s hs => ⟨hs, [], adds_pure a s, nofun⟩

theorem notes_except (e : Except Fault α) : Notes I P (ExceptT.mk (pure e)) (ExceptT.mk (pure e)) :=
  fun s hs => ⟨hs, [], adds_except e s, nofun⟩

theorem notes_bind (hr : Notes I P r' r) (hf : ∀ a, Notes I P (f' a) (f a)) :
    Notes I P (r' >>= f') (r >>= f) := by
  intro s hs
  refine ⟨preserves_bind (fun s hs => (hr s hs).1) (fun a s hs => (hf a s hs).1) s hs, ?_⟩
  obtain ⟨ht, notes, hadds, hnotes⟩ := hr s hs
  rcases hresult : exec r s with ⟨e | a, t⟩
  all_goals rw [hresult] at ht
  · exact ⟨notes, hadds.bind_error hresult, hnotes⟩
  · obtain ⟨-, notes', hadds', hnotes'⟩ := hf a t ht
    refine ⟨notes ++ notes', hadds.bind hresult hadds', fun x hx => ?_⟩
    exact (List.mem_append.mp hx).elim (hnotes x) (hnotes' x)

theorem notes_asking {e : Event} (he : P e) (h : Preserves I r) :
    Notes I P (Watched.asking e r) r := by
  refine fun s hs => ⟨h s hs, [⟨e, s⟩], adds_asking e r s, fun x hx => ?_⟩
  rw [List.mem_singleton.mp hx]
  exact ⟨he, hs⟩

theorem notes_noting {events : List Event} {x : StateM σ α} (hevents : ∀ e ∈ events, P e)
    (h : ∀ s, I s → I (x.run s).2) : Notes I P (liftM (Watched.noting events x)) (liftM x) := by
  refine fun s hs => ⟨h s hs, events.map (⟨·, s⟩), adds_noting events x s, fun m hm => ?_⟩
  obtain ⟨e, he, rfl⟩ := List.mem_map.mp hm
  exact ⟨hevents e he, hs⟩

end Notes

/-! ### Watched managers -/

namespace Manager

variable {mgr : Manager (StateM σ)} {I : σ → Prop}

theorem adds_start (mgr : Manager (StateM σ)) (op : Operation) (s : σ) :
    Adds (mgr.watched.start op) (mgr.start op) s [⟨.acquire op.command, s⟩] :=
  adds_asking _ _ s

/-- Those a manager works with, other than the lock, keep to certain states when they are asked for what
an operation needs. -/
structure Spares (mgr : Manager (StateM σ)) (I : σ → Prop) : Prop where
  reads : Preserves I (mgr.storage.read Storage.attachmentName)
  writes : ∀ value, Preserves I (mgr.storage.write Storage.attachmentName value)
  appends : ∀ line, Preserves I (mgr.storage.append Storage.operationLog line)
  contracts : ∀ token, Preserves I (mgr.contracts token)
  instanceToken : Preserves I mgr.instanceToken
  calls : ∀ s, I s → I (mgr.calls.get.run s).2
  recorded : ∀ calls s, I s → I ((mgr.calls.set calls).run s).2
  now : ∀ s, I s → I (mgr.now.run s).2
  nextEvent : ∀ x ∈ mgr.nextEvent, ∀ s, I s → I (x.run s).2

theorem spares_true (mgr : Manager (StateM σ)) : mgr.Spares fun _ => True := by
  constructor
  all_goals simp [Preserves]

namespace Spares

theorem notes_settle (h : mgr.Spares I) (r : Resolving α) :
    Notes I Event.Resolves (mgr.watched.settle r) (mgr.settle r) := by
  refine notes_bind (notes_noting nofun h.calls) fun calls => ?_
  refine notes_bind (notes_noting ?_ (h.recorded _)) fun _ => notes_except _
  exact List.forall_mem_singleton.mpr trivial

theorem notes_contracts (h : mgr.Spares I) (token : Text) :
    Notes I Event.Resolves (mgr.watched.contracts token) (mgr.contracts token) :=
  notes_asking trivial (h.contracts token)

/-- Resolving an operation. -/
theorem notes_resolve (h : mgr.Spares I) (op : Operation) (a : Attachment) :
    Notes I Event.Resolves (mgr.watched.resolve op a) (mgr.resolve op a) := by
  refine notes_bind (notes_bind (notes_noting nofun h.now) fun now => notes_pure _) fun ctx => ?_
  cases op with
  | change => exact h.notes_settle _
  | attach token =>
    dsimp only
    split
    · exact h.notes_settle _
    · exact notes_bind (h.notes_contracts token) fun contract => h.notes_settle _
  | detach => exact h.notes_settle _
  | refresh =>
    cases a.contract with
    | none => exact h.notes_settle _
    | some record => exact notes_bind (h.notes_contracts _) fun contract => h.notes_settle _
  | autoAttach options =>
    refine notes_bind (notes_asking trivial h.instanceToken) fun token =>
      notes_bind (h.notes_settle _) fun arrived => ?_
    cases arrived with
    | inl r => exact notes_pure r
    | inr arrival => exact notes_bind (h.notes_contracts _) fun contract => h.notes_settle _

end Spares

end Manager

end Subscription
