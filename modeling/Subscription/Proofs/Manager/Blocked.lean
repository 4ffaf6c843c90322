import Subscription.Proofs.Manager.Bracket
import Subscription.Proofs.Resolution.Identity

/-!
Operations that are blocked: services are to be changed without a subscription, the machine is attached
already or not at all, a token stands for no contract any more, or there is no instance to attach. However
many ways there are to be blocked, and whatever is stored, all that comes of it is a report with one error.
-/

namespace Subscription

variable {σ : Type} {w : Embedded.World} {op : Operation} {a : Attachment} {e : Entry}

def Report.ofError (e : Entry) : Report :=
  ⟨.failure, [], [], [e], [], false⟩

/-- What those are told who ask for services on a machine without a subscription. Every name has a clause
of its own, first those that are unknown and then the others, both in the order of the request. -/
def Catalog.refusal (c : Catalog) (allowBeta : Bool) (action : ServiceAction) (names : List Text) :
    Entry where
  message := Message.joinClauses
    (((dedupe names).filter fun n => !c.knows allowBeta n).map (Message.unknownClause action.name) ++
      ((dedupe names).filter (c.knows allowBeta)).map Message.unattachedClause)
  code :=
    if ∀ n ∈ names, c.knows allowBeta n = false then "invalid-service-or-failure"
    else if ∀ n ∈ names, c.knows allowBeta n = true then "valid-service-failure-unattached"
    else "mixed-services-failure-unattached"
  service := none
  scope := .system

/-- What stands in the way of a request without a subscription is told in these words. -/
theorem obstacle?_unattached (c : Catalog) (allowBeta : Bool) (action : ServiceAction)
    (names : List Text) (unattached : a.attached = false) :
    ∃ m, (c.partition allowBeta (dedupe names)).obstacle? action.name a = some m ∧
      .ofSystem m = c.refusal allowBeta action names := by
  have hknown : (∀ n ∈ names, c.knows allowBeta n = false) ↔
      (c.partition allowBeta (dedupe names)).known = [] := by
    simp [Catalog.partition, List.filter_eq_nil_iff]
  have hunknown : (∀ n ∈ names, c.knows allowBeta n = true) ↔
      (c.partition allowBeta (dedupe names)).unknown = [] := by
    simp [Catalog.partition, List.filter_eq_nil_iff]
  rw [Partition.obstacle?, unattached, if_neg Bool.false_ne_true, Catalog.refusal]
  simp only [hknown, hunknown]
  show ∃ m, _ ∧ _ = (⟨Message.joinClauses
    ((c.partition allowBeta (dedupe names)).unknown.map (Message.unknownClause action.name) ++
      (c.partition allowBeta (dedupe names)).known.map Message.unattachedClause), _, _, _⟩ : Entry)
  obtain ⟨known, unknown⟩ := c.partition allowBeta (dedupe names)
  cases known with
  | nil => exact ⟨.unknownServices action.name unknown, rfl, by simp [Entry.ofSystem, Message.text,
      Message.code]⟩
  | cons n known =>
    cases unknown with
    | nil => exact ⟨.unattachedServices (n :: known), rfl, rfl⟩
    | cons m unknown => exact ⟨.mixedServices action.name (m :: unknown) (n :: known), rfl, rfl⟩

/-! ### What blocks an operation -/

namespace Embedded.World

def Answers (w : World) : Prop :=
  (∀ token, ∃ contract, w.contracts token = .ok contract) ∧ ∃ token, w.instanceToken = .ok token

/-- Which operations are blocked on an attachment, and with which error. -/
inductive Blocks (w : World) (a : Attachment) : Operation → Entry → Prop
  | change (unattached : a.attached = false) (action : ServiceAction) (names : List Text)
      (named : names ≠ []) (assumeYes allowBeta : Bool) :
      w.Blocks a (.change action names assumeYes allowBeta)
        (w.catalog.refusal (allowBeta || w.allowBeta) action names)
  | attached (attached : a.attached = true) (token : Text) (autoEnable : Bool) :
      w.Blocks a (.attach token autoEnable) (.ofSystem (.alreadyAttached a.contractName))
  | unknownToken (unattached : a.attached = false) {token : Text}
      (unknown : w.contracts token = .ok none) (autoEnable : Bool) :
      w.Blocks a (.attach token autoEnable) (.ofSystem .invalidToken)
  | detach (unattached : a.attached = false) : w.Blocks a .detach (.ofSystem .notAttached)
  | refresh (unattached : a.attached = false) : w.Blocks a .refresh (.ofSystem .notAttached)
  | noContract (attached : a.attached = true) (missing : a.contract = none) :
      w.Blocks a .refresh (.ofSystem .refreshFailed)
  | lapsedContract (attached : a.attached = true) {record : ContractRecord}
      (stored : a.contract = some record) (lapsed : w.contracts record.token = .ok none) :
      w.Blocks a .refresh (.ofSystem .refreshFailed)
  | noInstance (unattached : a.attached = false) (absent : w.instanceToken = .ok none)
      (options : AutoAttachOptions) :
      w.Blocks a (.autoAttach options) (.ofSystem .autoAttachUnsupported)
  | noInstanceAttached (attached : a.attached = true) (absent : w.instanceToken = .ok none)
      (options : AutoAttachOptions) :
      w.Blocks a (.autoAttach options) (.ofSystem (.alreadyAttached a.contractName))
  | sameInstance {token : InstanceToken} (there : w.instanceToken = .ok (some token))
      (on : a.On token.instanceId) (options : AutoAttachOptions) :
      w.Blocks a (.autoAttach options) (.ofSystem (.sameInstance token.instanceId))

theorem Blocks.scope_eq (h : w.Blocks a op e) : e.scope = .system ∧ e.service = none := by
  cases h <;> exact ⟨rfl, rfl⟩

/-- A blocked operation ends at once: no call is made, and no attachment is left behind. -/
theorem Blocks.exec_resolving (h : w.Blocks a op e) (answers : w.Answers) (past : List Call) :
    exec (w.resolving op a) past = (.ok ⟨.ofError e, none⟩, past) := by
  rw [resolving, exec_bind, exec_liftExcept]
  cases h with
  | change unattached action names named assumeYes allowBeta =>
    obtain ⟨m, hobstacle, hm⟩ :=
      obstacle?_unattached w.catalog (allowBeta || w.allowBeta) action names unattached
    show exec (resolveRequest (w.context a) ⟨action, names, assumeYes, allowBeta || w.allowBeta⟩) past = _
    rw [resolveRequest, exec_bind, exec_liftExcept, Request.check, if_neg (by simpa using named), ← hm]
    simp only [context, hobstacle]
    rfl
  | attached attached =>
    simp only [resolver, attached, if_true, Except.map, Resolver.run, resolveAttach,
      LifecycleAction.obstacle?, context]
    rfl
  | unknownToken unattached unknown =>
    simp only [resolver, unattached, unknown, if_false, Bool.false_eq_true, Except.map, Resolver.run,
      resolveAttach, LifecycleAction.obstacle?, context]
    rfl
  | detach unattached =>
    simp only [resolver, Resolver.run, resolveDetach, LifecycleAction.obstacle?, context, unattached,
      if_false, Bool.false_eq_true]
    rfl
  | refresh unattached =>
    -- A contract may still be on record, and is then looked up before anything else.
    have hlooked : ∃ contract, w.resolver .refresh a = .ok (.refresh contract) := by
      rw [resolver]
      cases a.contract with
      | none => exact ⟨none, rfl⟩
      | some record =>
        obtain ⟨contract, hcontract⟩ := answers.1 record.token
        exact ⟨contract, congrArg (Except.map Resolver.refresh) hcontract⟩
    obtain ⟨contract, hcontract⟩ := hlooked
    simp only [hcontract, Resolver.run, resolveRefresh, LifecycleAction.obstacle?, context, unattached,
      if_false, Bool.false_eq_true]
    rfl
  | noContract attached missing =>
    simp only [resolver, missing, Except.map, Resolver.run, resolveRefresh, LifecycleAction.obstacle?,
      context, attached, if_true]
    rfl
  | lapsedContract attached stored lapsed =>
    simp only [resolver, stored, lapsed, Except.map, Resolver.run, resolveRefresh,
      LifecycleAction.obstacle?, context, attached, if_true]
    rfl
  | noInstance unattached absent =>
    simp only [resolver, absent, Except.map, Resolver.run, resolveAutoAttach, AutoAttach.arrive,
      context, unattached, if_false, Bool.false_eq_true]
    rfl
  | noInstanceAttached attached absent =>
    simp only [resolver, absent, Except.map, Resolver.run, resolveAutoAttach, AutoAttach.arrive,
      context, attached, if_true]
    rfl
  | sameInstance there on =>
    have harrive : exec (AutoAttach.arrive (w.context a) (some _)) past = _ := exec_arrive_of_on on past
    simp only [resolver, there, Except.map, Resolver.run, resolveAutoAttach, exec_bind, harrive]
    rfl

end Embedded.World

/-! ### Blocked operations of a manager -/

namespace Manager

/-- An operation is answered with nothing but an error that concerns it as a whole. No call is made, the
stored text is the one that was there before, and nothing is written over it. -/
structure Declines (mgr : Manager (StateM σ)) (v : View σ) (op : Operation) (e : Entry) (s : σ) :
    Prop where
  answered : (exec (mgr.perform op) s).1 = .ok ⟨.ofError e, v.attachment s⟩
  whole : e.scope = .system ∧ e.service = none
  stored : v.stored (exec (mgr.perform op) s).2 = v.stored s
  unwritten : ∀ name value, .write name value ∉ mgr.asks op s
  calls : v.calls (exec (mgr.perform op) s).2 = v.calls s

namespace Serves

variable {mgr : Manager (StateM σ)} {v : View σ} {alone : Prop} {s : σ}

/-- An operation that makes no call and leaves no attachment behind, while it has the lock. -/
theorem carryOut_of_idle (h : mgr.Serves w v alone) {r : Report} (hs : v.busy s)
    (hresolving : exec (w.resolving op (v.attachment s)) (v.calls s) = (.ok ⟨r, none⟩, v.calls s)) :
    (exec (mgr.resolved op) s).1 = .ok (v.attachment s, ⟨r, none⟩) ∧
      ∃ t, exec (mgr.carryOut op) s = (.ok ⟨r, v.attachment s⟩, t) ∧ v.Agree s t := by
  obtain ⟨t, hexec, ht, hstored, hcalls⟩ := h.simulates_resolve op (v.attachment s) s hs
  rw [hresolving] at hexec hcalls
  have hread := h.reads (Or.inr hs)
  constructor
  · simp only [Manager.resolved, exec_bind, hread, hexec, exec_pure]
  · obtain ⟨u, hlog, -, hagree⟩ := h.logs ht op r
    refine ⟨u, ?_, hagree.1.trans hstored, hagree.2.trans hcalls⟩
    simp only [Manager.carryOut, exec_bind, hread, hexec, hlog, exec_pure]
    rfl

theorem declines (h : mgr.Serves w v alone) (answers : w.Answers) (hs : v.idle s)
    (blocks : w.Blocks (v.attachment s) op e) (granted : (exec (mgr.start op) s).1 = .ok ()) :
    mgr.Declines v op e s := by
  obtain ⟨t, hstart, ht, hagree, hperform⟩ := h.perform_of_granted op hs granted
  rw [← hagree.attachment] at blocks
  obtain ⟨hresolved, t', hcarry, hkept⟩ :=
    h.carryOut_of_idle ht (blocks.exec_resolving answers (v.calls t))
  obtain ⟨hresult, hstored, hcalls⟩ := hperform hcarry hkept
  rw [hagree.attachment] at hresult
  exact ⟨hresult, blocks.scope_eq, hstored, not_mem_asks_write hstart hresolved, hcalls⟩

end Serves

end Manager

/-- A blocked operation touches nothing, in memory as well as on files, whatever is stored there, as long
as the lock is free and those who are asked answer. -/
theorem blocked_operation_touches_nothing (answers : w.Answers) (op : Operation) (e : Entry) :
    (∀ x : Embedded, x.holder = none → w.Blocks x.attachment op e →
      (Embedded.manager w).Declines (Embedded.view False) op e x) ∧
    ∀ (newName home : String) (m : Machine), Machine.Usable home m.tree → FileLock.Free home m →
      w.Blocks ((Machine.view home False).attachment m) op e →
      (Machine.manager newName home w).Declines (Machine.view home False) op e m := by
  constructor
  · intro x hx blocks
    refine (Embedded.serves_manager w False).declines answers False.elim blocks ?_
    rw [Manager.start, Embedded.exec_acquire, hx]
  · intro newName home m usable free blocks
    refine (Machine.serves_manager w False).declines answers ⟨usable, False.elim⟩ blocks ?_
    obtain ⟨t, hstart, -⟩ :=
      (FileLock.guards_onMachine (Machine.setup newName w) home).grants free op.command
    exact congrArg Prod.fst hstart

theorem Machine.unattached_broken (alone : Prop) :
    (view "/pro" alone).attachment broken = .unattached :=
  congrArg Attachment.ofStored stored_broken

open Embedded in
/-- Enabling a service that is known together with one that is not, on machines without a subscription. -/
theorem blocked_operation_touches_nothing_pair :
    let op : Operation := .change .enable ["a", "z", "a"] true false
    let e : Entry := ⟨Message.joinClauses
      [Message.unknownClause "enable" "z", Message.unattachedClause "a"],
      "mixed-services-failure-unattached", none, .system⟩
    (manager pairWorld).Declines (view False) op e .empty ∧
      (Machine.manager "event" "/pro" pairWorld).Declines (Machine.view "/pro" False) op e .broken := by
  have answers : pairWorld.Answers := ⟨fun _ => ⟨_, rfl⟩, none, rfl⟩
  obtain ⟨hmemory, hfiles⟩ := blocked_operation_touches_nothing answers
    (.change .enable ["a", "z", "a"] true false) (Catalog.pair.refusal false .enable ["a", "z", "a"])
  refine ⟨hmemory .empty rfl (.change rfl _ _ (by decide) _ _),
    hfiles "event" "/pro" .broken Machine.usable_broken FileLock.free_broken ?_⟩
  rw [Machine.unattached_broken]
  exact .change rfl _ _ (by decide) _ _

end Subscription
