import Subscription.Proofs.Executor.Cascade
import Subscription.Proofs.Manager.InMemory
import Subscription.Proofs.Manager.OnDisk
import Subscription.Proofs.Resolution.Faults

/-!
Operations that break off. The stored text is then the one that was there before. Under a handler that
always answers, the handler has done nothing either, with one exception: an instance gives up an older
subscription before its own contract is looked up, and when that fails, what has been disabled by then is
not stored.
-/

namespace Subscription

variable {σ : Type} {w : Embedded.World} {op : Operation} {f : Fault}

/-- An instance is to be attached whose contract cannot be looked up, on a machine that is attached
elsewhere with a service of the catalog enabled. -/
def Embedded.World.Strands (w : Embedded.World) (op : Operation) (f : Fault) (a : Attachment) : Prop :=
  ∃ options token, op = .autoAttach options ∧ w.instanceToken = .ok (some token) ∧
    w.contracts token.token = .error f ∧ a.attached = true ∧
    a.contract.bind (·.instanceId) ≠ some token.instanceId ∧ ∃ n ∈ a.enabled, w.catalog.has n

theorem Embedded.World.resolver_eq_autoAttach {a : Attachment} {options : AutoAttachOptions}
    {token : Option InstanceToken} {contracts : Text → Except Fault (Option Contract)}
    (h : w.resolver op a = .ok (.autoAttach options token contracts)) :
    op = .autoAttach options ∧ w.instanceToken = .ok token ∧ contracts = w.contracts := by
  have hmap : ∀ (e : Except Fault (Option Contract)) (g : Option Contract → Resolver),
      (∀ contract, g contract ≠ .autoAttach options token contracts) →
      e.map g ≠ .ok (.autoAttach options token contracts) := by
    intro e g hg he
    cases e with
    | error => cases he
    | ok contract => exact hg contract (Except.ok.inj he)
  cases op with
  | change | detach => cases h
  | attach | refresh => exact absurd h (hmap _ _ nofun)
  | autoAttach =>
    rw [resolver] at h
    rcases htoken : w.instanceToken with e | found
    · rw [htoken] at h
      cases h
    · rw [htoken] at h
      cases h
      exact ⟨rfl, rfl, rfl⟩

/-- Resolving an operation that breaks off has the handler do its work in the one case only. -/
theorem Embedded.World.calls_of_resolving (wf : w.catalog.WellFormed) (answers : w.handler.Answers)
    {a : Attachment} {past past' : List Call}
    (h : exec (w.resolving op a) past = (.error f, past')) :
    ∃ new, past' = past ++ new ∧ (w.handler.CarriedOut past new ↔ w.Strands op f a) := by
  have hquiet : past' = past → ¬w.Strands op f a → ∃ new, past' = past ++ new ∧
      (w.handler.CarriedOut past new ↔ w.Strands op f a) := by
    intro hsame hnot
    exact ⟨[], by simp [hsame], fun hdone => absurd hdone (Handler.not_carriedOut_nil past),
      fun hstrands => absurd hstrands hnot⟩
  rw [resolving, exec_bind, exec_liftExcept] at h
  rcases hresolver : w.resolver op a with e | t
  · rw [hresolver] at h
    refine hquiet (congrArg Prod.snd h).symm ?_
    rintro ⟨options, token, rfl, htoken, -⟩
    rw [resolver, htoken] at hresolver
    cases hresolver
  · rw [hresolver] at h
    have wf' : (w.context a).catalog.WellFormed := wf
    rcases Resolver.exec_run_error wf' answers h with
      ⟨r, rfl, -, -, hsame⟩ | ⟨options, token, contracts, arrival, rfl, harrive, hfound⟩
    · refine hquiet hsame ?_
      rintro ⟨options, token, rfl, htoken, -⟩
      rw [resolver, htoken] at hresolver
      cases hresolver
    · obtain ⟨rfl, htoken, rfl⟩ := resolver_eq_autoAttach hresolver
      obtain ⟨new, hcalls, hdone⟩ := AutoAttach.calls_of_arrive harrive
      refine ⟨new, hcalls, hdone.trans ⟨?_, ?_⟩⟩
      · rintro ⟨attached, hother, hthere⟩
        exact ⟨options, token, rfl, htoken, hfound, attached, hother, hthere⟩
      · -- The look-up that fails is that of the token with which the instance has arrived.
        rintro ⟨options', token', -, htoken', -, attached, hother, hthere⟩
        obtain rfl : token' = token := Option.some.inj (Except.ok.inj (htoken'.symm.trans htoken))
        exact ⟨attached, hother, hthere⟩

/-- What an operation leaves that has broken off: the same text in the store, and new calls of which one
was carried out only if a machine has been detached in vain. -/
def Manager.View.Spared (v : Manager.View σ) (w : Embedded.World) (op : Operation)
    (started : Except Fault Unit) (f : Fault) (s t : σ) : Prop :=
  v.stored t = v.stored s ∧ ∃ new, v.calls t = v.calls s ++ new ∧
    (w.handler.CarriedOut (v.calls s) new ↔ started = .ok () ∧ w.Strands op f (v.attachment s))

theorem Manager.Serves.spared {mgr : Manager (StateM σ)} {v : Manager.View σ} {alone : Prop}
    (h : mgr.Serves w v alone) (wf : w.catalog.WellFormed) (answers : w.handler.Answers) {s t : σ}
    (hs : v.idle s) (hexec : exec (mgr.perform op) s = (.error f, t)) :
    v.Spared w op (exec (mgr.start op) s).1 f s t := by
  obtain ⟨t', hstep, -, -, hcalls, -, hkept⟩ := h.perform op hs
  rw [hexec] at hstep hkept
  obtain ⟨hresult, rfl⟩ := Prod.mk.inj hstep
  refine ⟨hkept f rfl, ?_⟩
  rcases w.step_cases op (exec (mgr.start op) s).1 (v.attachment s) (v.calls s) with
    ⟨e, hgate, hstep⟩ | ⟨e, past, hgate, hr, hstep⟩ | ⟨r, past, -, -, hstep⟩
  all_goals
    rw [hstep] at hresult hcalls
    cases hresult
  · refine ⟨[], hcalls.trans (List.append_nil _).symm, ?_⟩
    rw [hgate]
    exact ⟨fun hdone => absurd hdone (Handler.not_carriedOut_nil _), fun hstarted => nomatch hstarted.1⟩
  · obtain ⟨new, hnew, hdone⟩ := Embedded.World.calls_of_resolving wf answers hr
    exact ⟨new, hcalls.trans hnew, hdone.trans ⟨fun hs => ⟨hgate, hs⟩, And.right⟩⟩

/-- An operation whose resolution breaks off breaks off itself, when nobody else has a claim to the
lock. -/
theorem Manager.Serves.rejects {mgr : Manager (StateM σ)} {v : Manager.View σ} {alone : Prop}
    (h : mgr.Serves w v alone) (halone : alone) {s : σ} (hs : v.idle s)
    (hstep : (w.step op (.ok ()) (v.attachment s) (v.calls s)).1 = .error f) :
    (exec (mgr.start op) s).1 = .ok () ∧ ∃ t, exec (mgr.perform op) s = (.error f, t) := by
  obtain ⟨t, hexec, -, -, -, hstart, -⟩ := h.perform op hs
  rw [hstart halone, hstep] at hexec
  exact ⟨hstart halone, t, hexec⟩

/-- What an operation that has broken off leaves, in memory as well as on a machine whose attachment and
log can be read and written. -/
theorem rejected_spares {document : Json} (accepted : Catalog.ofDocument document = .ok w.catalog)
    (answers : w.handler.Answers) (op : Operation) (f : Fault) :
    (∀ e t : Embedded,
        exec ((Embedded.manager w : Manager (StateM Embedded)).perform op) e = (.error f, t) →
        (Embedded.view False).Spared w op (exec ((Embedded.manager w).start op) e).1 f e t) ∧
      ∀ (newName home : String) (m t : Machine), Machine.Usable home m.tree →
        exec ((Machine.manager newName home w).perform op) m = (.error f, t) →
        (Machine.view home False).Spared w op
          (exec ((Machine.manager newName home w).start op) m).1 f m t := by
  have wf := Catalog.wellFormed_of_ofDocument accepted
  refine ⟨fun e t hexec => ?_, fun newName home m t usable hexec => ?_⟩
  · exact (Embedded.serves_manager w False).spared wf answers False.elim hexec
  · exact (Machine.serves_manager w False).spared wf answers ⟨usable, False.elim⟩ hexec

namespace Embedded

def strandedWorld : World :=
  { pairWorld with
    contracts := fun _ => .error .malformed
    instanceToken := .ok (some ⟨"i", "t"⟩) }

/-- A memory in which the machine is attached as another instance, with `b` enabled. -/
def elsewhere : Embedded :=
  { empty with memory := Memory.empty.write Storage.attachmentName (Attachment.toJson
      ⟨true, ["a", "b"], ["b"], some ⟨"k", "t", "2025-01-01T00:00:00.000Z", some "j"⟩⟩) }

theorem attachment_elsewhere : elsewhere.attachment =
    ⟨true, ["a", "b"], ["b"], some ⟨"k", "t", "2025-01-01T00:00:00.000Z", some "j"⟩⟩ :=
  attachment_write empty _

theorem strands_elsewhere (options : AutoAttachOptions) :
    strandedWorld.Strands (.autoAttach options) .malformed elsewhere.attachment := by
  rw [attachment_elsewhere]
  exact ⟨options, ⟨"i", "t"⟩, rfl, rfl, rfl, rfl, by decide, "b", by decide, by decide⟩

theorem rejects_elsewhere :
    (exec ((manager strandedWorld : Manager (StateM Embedded)).start (.autoAttach ⟨[], [], none⟩))
        elsewhere).1 = .ok () ∧
      ∃ t, exec ((manager strandedWorld : Manager (StateM Embedded)).perform
        (.autoAttach ⟨[], [], none⟩)) elsewhere = (.error .malformed, t) := by
  refine (serves_manager strandedWorld True).rejects trivial (fun _ => rfl) ?_
  rw [attachment_view, attachment_elsewhere]
  rfl

end Embedded

theorem Machine.rejects_broken :
    (exec ((manager "event" "/pro" Embedded.strandedWorld).start (.autoAttach ⟨[], [], none⟩))
        broken).1 = .ok () ∧
      ∃ t, exec ((manager "event" "/pro" Embedded.strandedWorld).perform
        (.autoAttach ⟨[], [], none⟩)) broken = (.error .malformed, t) := by
  refine (serves_manager Embedded.strandedWorld True).rejects trivial
    ⟨usable_broken, fun _ => alone_broken⟩ ?_
  rw [Manager.View.attachment, view, stored_broken]
  rfl

open Embedded in
/-- On an instance that is attached elsewhere the handler has disabled `b`, of which the store says
nothing; on a machine that is not attached it has done nothing. -/
theorem rejected_spares_elsewhere :
    (∃ t new, exec ((manager strandedWorld : Manager (StateM Embedded)).perform
          (.autoAttach ⟨[], [], none⟩)) elsewhere = (.error .malformed, t) ∧
        (view False).stored t = (view False).stored elsewhere ∧ t.calls = elsewhere.calls ++ new ∧
        strandedWorld.handler.CarriedOut elsewhere.calls new) ∧
      ∃ t new, exec ((Machine.manager "event" "/pro" strandedWorld).perform
          (.autoAttach ⟨[], [], none⟩)) Machine.broken = (.error .malformed, t) ∧
        t.stored "/pro" = Machine.broken.stored "/pro" ∧ t.calls = Machine.broken.calls ++ new ∧
        ¬strandedWorld.handler.CarriedOut Machine.broken.calls new := by
  have answers : strandedWorld.handler.Answers := Handler.obedient_system.answers
  obtain ⟨hmemory, hdisk⟩ := rejected_spares (w := strandedWorld) Catalog.ofDocument_pair answers
    (.autoAttach ⟨[], [], none⟩) .malformed
  obtain ⟨hstart, t, hexec⟩ := rejects_elsewhere
  obtain ⟨hstart', u, hexec'⟩ := Machine.rejects_broken
  obtain ⟨hstored, new, hcalls, hdone⟩ := hmemory elsewhere t hexec
  obtain ⟨hstored', more, hcalls', hdone'⟩ :=
    hdisk "event" "/pro" Machine.broken u Machine.usable_broken hexec'
  refine ⟨⟨t, new, hexec, hstored, hcalls, hdone.mpr ⟨hstart, strands_elsewhere _⟩⟩,
    u, more, hexec', hstored', hcalls', fun h => ?_⟩
  obtain ⟨-, -, -, -, -, -, hattached, -⟩ := hdone'.mp h
  rw [Manager.View.attachment, Machine.view, Machine.stored_broken] at hattached
  cases hattached

open Embedded in
/-- So an operation that breaks off can have had the handler do its work. -/
theorem rejected_disables_elsewhere :
    ¬∀ (document : Json) (w : World) (op : Operation) (e t : Embedded) (f : Fault)
        (new : List Call), Catalog.ofDocument document = .ok w.catalog → w.handler.Answers →
      exec ((manager w : Manager (StateM Embedded)).perform op) e = (.error f, t) →
      t.calls = e.calls ++ new →
      ¬w.handler.CarriedOut e.calls new ∧ t.attachment = e.attachment := by
  intro h
  have answers : strandedWorld.handler.Answers := Handler.obedient_system.answers
  obtain ⟨hstart, t, hexec⟩ := rejects_elsewhere
  obtain ⟨-, new, hcalls, hdone⟩ := (serves_manager strandedWorld False).spared
    (Catalog.wellFormed_of_ofDocument Catalog.ofDocument_pair) answers False.elim hexec
  exact (h _ strandedWorld _ elsewhere t .malformed new Catalog.ofDocument_pair answers hexec
    hcalls).1 (hdone.mpr ⟨hstart, strands_elsewhere _⟩)

end Subscription
