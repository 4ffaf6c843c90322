import Subscription.Attachment
import Subscription.Catalog.Basic
import Subscription.Fault
import Subscription.Operation.Report

/-!
Requests by name. The requested names are split into those that the catalog knows and those it does
not; the split and the state of the machine decide whether the request goes ahead.
-/

namespace Subscription

/-- Requested names, split by whether the catalog knows them; each part in the order of the
request. -/
structure Partition where
  known : List Text
  unknown : List Text

inductive Format where
  | text
  | json
deriving DecidableEq

structure Request where
  action : ServiceAction
  names : List Text
  /-- Whether the services that a change depends on are changed too. -/
  assumeYes : Bool
  allowBeta : Bool

def dedupe (names : List Text) : List Text :=
  names.foldl (fun seen n => if n ∈ seen then seen else seen ++ [n]) []

theorem mem_foldl_dedupe {seen names : List Text} {n : Text} :
    n ∈ names.foldl (fun seen n => if n ∈ seen then seen else seen ++ [n]) seen ↔
      n ∈ seen ∨ n ∈ names := by
  induction names generalizing seen with
  | nil => simp
  | cons m ms ih =>
    rw [List.foldl_cons, ih]
    by_cases h : m ∈ seen
    · simp only [h, if_true, List.mem_cons]
      exact ⟨fun hn => hn.imp_right Or.inr, fun hn => hn.elim Or.inl fun hn =>
        hn.elim (fun e => Or.inl (e ▸ h)) Or.inr⟩
    · simp [h, or_assoc]

@[simp] theorem mem_dedupe {names : List Text} {n : Text} : n ∈ dedupe names ↔ n ∈ names := by
  simp [dedupe, mem_foldl_dedupe]

theorem nodup_foldl_dedupe {seen names : List Text} (h : seen.Nodup) :
    (names.foldl (fun seen n => if n ∈ seen then seen else seen ++ [n]) seen).Nodup := by
  induction names generalizing seen with
  | nil => exact h
  | cons m ms ih =>
    rw [List.foldl_cons]
    by_cases hm : m ∈ seen
    · simpa [hm] using ih h
    · simp only [hm, if_false]
      exact ih (List.nodup_append.2 ⟨h, by simp, by
        intro a ha b hb
        rw [List.mem_singleton.1 hb]
        exact fun e => hm (e ▸ ha)⟩)

theorem nodup_dedupe (names : List Text) : (dedupe names).Nodup :=
  nodup_foldl_dedupe List.nodup_nil

def Catalog.knows (c : Catalog) (allowBeta : Bool) (name : Text) : Bool :=
  (c.find? name).any fun s => allowBeta || !s.isBeta

def Catalog.partition (c : Catalog) (allowBeta : Bool) (names : List Text) : Partition :=
  ⟨names.filter (c.knows allowBeta), names.filter fun n => !c.knows allowBeta n⟩

@[simp] theorem Catalog.mem_known {c : Catalog} {allowBeta : Bool} {names : List Text}
    {n : Text} : n ∈ (c.partition allowBeta names).known ↔ n ∈ names ∧ c.knows allowBeta n := by
  simp [Catalog.partition]

@[simp] theorem Catalog.mem_unknown {c : Catalog} {allowBeta : Bool} {names : List Text}
    {n : Text} :
    n ∈ (c.partition allowBeta names).unknown ↔ n ∈ names ∧ ¬c.knows allowBeta n := by
  simp [Catalog.partition]

def Request.check (r : Request) : Except Fault Unit :=
  if r.names.isEmpty then .error (.noServiceNames r.action) else .ok ()

/-- The four kinds of request, by the split of the names and the state of the machine. -/
inductive Classification where
  | allUnknown
  | allKnownUnattached
  | mixed
  | attached
deriving DecidableEq

def Classification.name : Classification → Text
  | .allUnknown => "all-unknown"
  | .allKnownUnattached => "all-known-unattached"
  | .mixed => "mixed"
  | .attached => "normal-attached-execution"

namespace Partition

def classify (p : Partition) (attached : Bool) : Classification :=
  if p.known.isEmpty then .allUnknown
  else if attached then .attached
  else if p.unknown.isEmpty then .allKnownUnattached
  else .mixed

def batchError (p : Partition) (action : Text) : Classification → Option Message
  | .allUnknown => some (.unknownServices action p.unknown)
  | .allKnownUnattached => some (.unattachedServices p.known)
  | .mixed => some (.mixedServices action p.unknown p.known)
  | .attached => none

/-- What stops a request for services. On an attached machine nothing does: unknown names are then
reported after the others have been dealt with. -/
def obstacle? (p : Partition) (action : Text) (a : Attachment) : Option Message :=
  if a.attached then none else p.batchError action (p.classify false)

end Partition

inductive LifecycleAction where
  | attach
  | detach
  | refresh
deriving DecidableEq

/-- What stops an operation on the attachment: attaching twice, or changing what is not there. -/
def LifecycleAction.obstacle? (action : LifecycleAction) (a : Attachment) : Option Message :=
  match action with
  | .attach => if a.attached then some (.alreadyAttached a.contractName) else none
  | .detach | .refresh => if a.attached then none else some .notAttached

end Subscription
