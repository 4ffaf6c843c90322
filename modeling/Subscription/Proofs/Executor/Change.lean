import Subscription.Proofs.Catalog.Ordering
import Subscription.Proofs.Catalog.Requirement
import Subscription.Proofs.Executor.Reasoning

/-!
Enabling and disabling as two cases of one recursion. A service that is still `pending` is changed
once nothing `inTheWay` of it is pending; what is in the way is changed first, in its order. The
equation `exec_changeService` is the recursion, `exec_invoke` what one call to the handler does.
-/

namespace Subscription

def Tally.heed (t : Tally) (service : Text) (needsReboot : Bool) (notices : List Notice) : Tally :=
  { t with
    warnings := t.warnings ++ notices.map fun n => ⟨n.message, n.code, some service, .service⟩
    needsReboot := t.needsReboot || needsReboot }

theorem Tally.foldl_addWarning {α : Type} (entry : α → Entry) (xs : List α) (t : Tally) :
    xs.foldl (fun t x => t.addWarning (entry x)) t =
      { t with warnings := t.warnings ++ xs.map entry } := by
  induction xs generalizing t with
  | nil => simp
  | cons x xs ih =>
    rw [List.foldl_cons, ih]
    simp [addWarning]

namespace Executor

/-! ### The two directions of a change -/

/-- Whether a service has still to be changed. -/
def pending (action : ServiceAction) (enabled : List Text) (n : Text) : Bool :=
  match action with
  | .enable => n ∉ enabled
  | .disable => n ∈ enabled

def Setting.obstacle? (x : Setting) : ServiceAction → Service → Option Message
  | .enable, s =>
    if s.name ∉ x.entitlements then some (.notEntitled s.title)
    else if !x.catalog.isAvailable s.name x.series then some (.notAvailable s.title x.series)
    else none
  | .disable, _ => none

theorem obstacle?_enable_eq_none_iff {x : Setting} {s : Service} :
    x.obstacle? .enable s = none ↔
      s.name ∈ x.entitlements ∧ x.catalog.isAvailable s.name x.series = true := by
  by_cases hgranted : s.name ∈ x.entitlements
  · cases havailable : x.catalog.isAvailable s.name x.series <;>
      simp [Setting.obstacle?, hgranted, havailable]
  · simp [Setting.obstacle?, hgranted]

def alreadyMessage : ServiceAction → Text → Message
  | .enable => .alreadyEnabled
  | .disable => .alreadyDisabled

def conflictMessage : ServiceAction → Text → Text → Message
  | .enable => .requiredDisabled
  | .disable => .dependentEnabled

def alongMessage : ServiceAction → Text → Message
  | .enable => .enablingRequired
  | .disable => .disablingDependent

def refusal? (x : Setting) (action : ServiceAction) (s : Service) (enabled : List Text) :
    Option Message :=
  match x.obstacle? action s with
  | some m => some m
  | none => if pending action enabled s.name then none else some (alreadyMessage action s.title)

/-- The pending services that have to be changed before a service, in their order. -/
def inTheWay (x : Setting) (action : ServiceAction) (s : Service) (enabled : List Text) :
    List Text :=
  Catalog.sortBy (x.catalog.before action)
    ((x.catalog.before action s.name).filter (pending action enabled))

def changeService (x : Setting) : ServiceAction → Nat → Service → Text → Run (Option Entry)
  | .enable => enableService x
  | .disable => disableService x

def changeAlong (x : Setting) (action : ServiceAction) (fuel : Nat) (who n : Text) :
    Run (Option Entry) := do
  let s ← definition x n
  record (·.addWarning (.ofService who (alongMessage action s.title)))
  changeService x action fuel s who

def changeAfter (x : Setting) (action : ServiceAction) (fuel : Nat) (s : Service) (who : Text)
    (others : List Text) : Run (Option Entry) :=
  match others.head?, x.assumeYes with
  | some first, false => do
    let other ← definition x first
    pure (some (.ofService who (conflictMessage action s.title other.title)))
  | _, _ => do
    let failure ← firstFailure (changeAlong x action fuel who) others
    match failure with
    | some e => pure (some e)
    | none => invoke x action s who

/-- A change is refused, or goes ahead once the services in the way have been dealt with. -/
theorem exec_changeService {x : Setting} {s : Service} (hs : x.catalog.find? s.name = some s)
    (action : ServiceAction) (fuel : Nat) (who : Text) (p : Progress) :
    exec (changeService x action (fuel + 1) s who) p =
      match refusal? x action s p.enabled with
      | some m => (.ok (some (.ofService who m)), p)
      | none => exec (changeAfter x action fuel s who (inTheWay x action s p.enabled)) p := by
  cases action with
  | enable =>
    have hway : x.catalog.enableOrder (s.requiredServices.filter (· ∉ p.enabled)) =
        inTheWay x .enable s p.enabled := by
      rw [inTheWay, Catalog.before, Catalog.requirementsOf_of_find? hs]
      rfl
    simp only [changeService, enableService, exec_bind, exec_get, exec_ite, exec_pure, hway,
      refusal?, Setting.obstacle?, pending]
    split
    · rfl
    · split
      · rfl
      · by_cases hn : s.name ∈ p.enabled
        · simp only [hn, if_true, not_true, decide_false, Bool.false_eq_true, if_false]
          rfl
        · simp only [hn, if_false, not_false_eq_true, decide_true, if_true]
          rfl
  | disable =>
    simp only [changeService, disableService, exec_bind, exec_get, exec_ite, exec_pure,
      refusal?, Setting.obstacle?, pending]
    by_cases hn : s.name ∈ p.enabled
    · simp only [hn, not_true, if_false, decide_true, if_true]
      rfl
    · simp only [hn, not_false_eq_true, if_true, decide_false, Bool.false_eq_true, if_false]
      rfl

/-- With consent to all that is in the way, the service itself is changed when the others are. -/
theorem exec_changeAfter {x : Setting} (yes : x.assumeYes = true) (action : ServiceAction)
    (fuel : Nat) (s : Service) (who : Text) (others : List Text) (p : Progress) :
    exec (changeAfter x action fuel s who others) p =
      match exec (firstFailure (changeAlong x action fuel who) others) p with
      | (.ok none, q) => exec (invoke x action s who) q
      | r => r := by
  have hmatch : changeAfter x action fuel s who others = (do
      match ← firstFailure (changeAlong x action fuel who) others with
      | some e => pure (some e)
      | none => invoke x action s who) := by
    rw [changeAfter, yes]
    split
    · next h => cases h
    · rfl
  rw [hmatch, exec_bind]
  rcases exec (firstFailure (changeAlong x action fuel who) others) p with ⟨_ | _ | _, q⟩ <;> rfl

/-! ### One call to the handler -/

def Setting.call (x : Setting) (action : ServiceAction) (s : Service) : Call :=
  ⟨action, s, x.series, x.assumeYes⟩

def Progress.called (p : Progress) (c : Call) : Progress :=
  { p with calls := p.calls ++ [c] }

def Progress.refused (p : Progress) (c : Call) (who : Text) : Progress :=
  { p.called c with handlerFailed := p.handlerFailed ++ [who] }

def Progress.changedBy (p : Progress) (c : Call) (needsReboot : Bool) (notices : List Notice) :
    Progress :=
  { p.called c with
    enabled := applyChange c.action c.service.name p.enabled
    changed := p.changed ++ [c.service.name]
    tally := p.tally.heed c.service.name needsReboot notices }

theorem exec_invoke (x : Setting) (action : ServiceAction) (s : Service) (who : Text)
    (p : Progress) :
    exec (invoke x action s who) p =
      match x.handler.respond p.calls (x.call action s) with
      | .raised text => (.error (.raised text), p.called (x.call action s))
      | .failed message code =>
        (.ok (some ⟨message, code, some who, .service⟩), p.refused (x.call action s) who)
      | .done needsReboot notices =>
        (.ok none, p.changedBy (x.call action s) needsReboot notices) := by
  simp only [invoke, exec_bind, exec_get, exec_modify, Setting.call]
  cases x.handler.respond p.calls ⟨action, s, x.series, x.assumeYes⟩ with
  | raised text => rfl
  | failed message code => rfl
  | done needsReboot notices =>
    cases needsReboot <;>
      simp [-bind_pure_comp, exec_bind, Tally.foldl_addWarning, Progress.changedBy,
        Progress.called, Tally.heed, Tally.requireReboot]

theorem pending_applyChange {action : ServiceAction} {enabled : List Text} (hnd : enabled.Nodup)
    (m n : Text) :
    pending action (applyChange action m enabled) n =
      (pending action enabled n && decide (n ≠ m)) := by
  cases action with
  | enable => simp [pending, applyChange, not_or]
  | disable => simp [pending, applyChange, hnd.mem_erase_iff, Bool.and_comm]

theorem nodup_applyChange {action : ServiceAction} {enabled : List Text} (hnd : enabled.Nodup)
    {n : Text} (hn : pending action enabled n) : (applyChange action n enabled).Nodup := by
  cases action with
  | enable =>
    have hn : n ∉ enabled := by simpa [pending] using hn
    exact List.nodup_append_comm.mp (List.nodup_cons.mpr ⟨hn, hnd⟩)
  | disable => exact hnd.erase n

end Executor

end Subscription
