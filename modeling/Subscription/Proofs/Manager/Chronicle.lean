import Subscription.Proofs.Json.Fields
import Subscription.Proofs.Json.Lines
import Subscription.Proofs.Manager.Simulation
import Subscription.Proofs.Storage.Log

/-!
What the operation log tells. Every operation that comes to a report adds one line to it, and one that
breaks off adds none; so after a run of operations the log tells of those that came to a report, one after
the other. The line of an operation is a document that gives back what there is to tell, and stays a single
line whatever the names and texts in it are.
-/

namespace Subscription

/-! ### Records and lines -/

namespace OperationRecord

def schema : Json.Schema :=
  .record [("event_id", .leaf), ("timestamp", .leaf), ("action", .leaf), ("requested_names", .list .leaf),
    ("result", .leaf), ("processed_services", .list .leaf), ("failed_services", .list .leaf),
    ("message_codes", .list .leaf), ("needs_reboot", .leaf)]

theorem fits_toJson (r : OperationRecord) : schema.Fits r.toJson :=
  .field (.string _) <| .field (.string _) <| .field (.string _) <|
    .field (Json.Schema.fits_ofStrings _) <| .field (.string _) <|
    .field (Json.Schema.fits_ofStrings _) <| .field (Json.Schema.fits_ofStrings _) <|
    .field (Json.Schema.fits_ofStrings _) <| .field (.bool _) .empty

/-- What a document tells of an operation. -/
structure ToldBy (r : OperationRecord) (v : Json) : Prop where
  eventId : v.field? "event_id" Json.string? = some r.eventId
  timestamp : v.field? "timestamp" Json.string? = some r.timestamp
  action : v.field? "action" Json.string? = some r.action.name
  requested : v.field? "requested_names" Json.strings? = some r.requested
  verdict : v.field? "result" Json.string? = some r.report.verdict.name
  processed : v.field? "processed_services" Json.strings? = some r.report.processed
  failed : v.field? "failed_services" Json.strings? = some r.report.failed
  codes : v.field? "message_codes" Json.strings? = some (r.report.errors.map (·.code))
  needsReboot : v.field? "needs_reboot" Json.bool? = some r.report.needsReboot

theorem toldBy_toJson (r : OperationRecord) : r.ToldBy r.toJson where
  eventId := rfl
  timestamp := rfl
  action := rfl
  requested := Json.strings?_ofStrings r.requested
  verdict := rfl
  processed := Json.strings?_ofStrings r.report.processed
  failed := Json.strings?_ofStrings r.report.failed
  codes := Json.strings?_ofStrings (r.report.errors.map Entry.code)
  needsReboot := rfl

theorem parse_line (r : OperationRecord) : Json.parse r.line = some r.toJson :=
  (r.fits_toJson.plain (by decide)).parse_compact

end OperationRecord

/-! ### An operation and the log -/

section Mute

variable {m : Type → Type} [Monad m]

def Manager.mute (mgr : Manager m) : Manager m :=
  { mgr with storage := { mgr.storage with append := fun _ _ => pure () } }

@[simp] theorem Manager.read_mute (mgr : Manager m) : mgr.mute.storage.read = mgr.storage.read := rfl

@[simp] theorem Manager.write_mute (mgr : Manager m) : mgr.mute.storage.write = mgr.storage.write := rfl

theorem Manager.unlogged_mute (mgr : Manager m) (op : Operation) :
    mgr.mute.unlogged op = mgr.unlogged op := rfl

end Mute

namespace Machine

/-- Nothing goes to the log but what is added to it. -/
theorem spares_mute (newName home : String) (w : Embedded.World) (lines : List String) :
    (manager newName home w).mute.Spares (Busy home lines) where
  reads := by
    rw [Manager.read_mute]
    exact preserves_read _ home Storage.attachmentName
  writes := by
    rw [Manager.write_mute]
    exact preserves_write (fun hm => hm.has.leads) (.of_sameOutside (by decide) (by decide))
      isName_attachmentName
  appends _ := preserves_pure ()
  contracts _ _ hm := hm
  instanceToken _ hm := hm
  calls _ hm := hm
  recorded calls _ hm := ⟨(aboutLock_has home).calls calls hm.has, hm.logged⟩
  now _ hm := hm
  nextEvent x hx m hm := by
    have hnext : x ∈ (manager newName home w).nextEvent := hx
    rw [nextEvent_manager] at hnext
    split_ifs at hnext
    · cases hnext
      exact hm
    · cases hnext

end Machine

/-! ### One operation after the other -/

/-- An operation in a run of several, and what others do to the machine before it. -/
structure Job where
  before : Machine → Machine
  newName : String
  world : Embedded.World
  operation : Operation

namespace Job

open Machine

variable {home : String} {lines : List String} {m : Machine}

abbrev manager (home : String) (j : Job) : Manager (StateM Machine) :=
  Machine.manager j.newName home j.world

def run (home : String) (j : Job) (m : Machine) : Except Fault Performed × Machine :=
  exec ((j.manager home).perform j.operation) (j.before m)

def runAll (home : String) : List Job → Machine → List (Job × Except Fault Performed) × Machine
  | [], m => ([], m)
  | j :: js, m =>
    let x := j.run home m
    let rest := runAll home js x.2
    ((j, x.1) :: rest.1, rest.2)

def record (j : Job) (r : Report) : OperationRecord :=
  ⟨j.newName, j.world.now, j.operation.action, j.operation.requested, r⟩

/-- What there is to tell of an operation: nothing if it broke off. -/
def records (j : Job) : Except Fault Performed → List OperationRecord
  | .ok done => [j.record done.report]
  | .error _ => []

def extended (lines : List String) (j : Job) (result : Except Fault Performed) : List String :=
  lines ++ (j.records result).map OperationRecord.line

@[simp] theorem extended_ok (lines : List String) (j : Job) (done : Performed) :
    extended lines j (.ok done) = lines ++ [(j.record done.report).line] := rfl

@[simp] theorem extended_error (lines : List String) (j : Job) (f : Fault) :
    extended lines j (.error f) = lines :=
  List.append_nil lines

/-- An operation that has the lock adds its line to the log, unless it breaks off. -/
theorem busy_carryOut (j : Job) (logged : j.world.logged = true) (h : Busy home lines m) :
    Busy home (extended lines j (exec ((j.manager home).carryOut j.operation) m).1)
      (exec ((j.manager home).carryOut j.operation) m).2 := by
  -- With its log muted the manager does the same up to there, and leaves the log alone.
  have ht := (spares_mute j.newName home j.world lines).preserves_unlogged j.operation m h
  rw [Manager.unlogged_mute] at ht
  rw [Manager.carryOut_eq, exec_bind]
  rcases hunlogged : exec ((j.manager home).unlogged j.operation) m with ⟨f | x, t⟩
  all_goals rw [hunlogged] at ht
  · rw [extended_error]
    exact ht
  · have hlog : exec ((j.manager home).log j.operation x.2.report) t =
        exec ((storage home).append Storage.operationLog (j.record x.2.report).line) t := by
      rw [manager, exec_log, if_pos logged]
      rfl
    simp only [exec_bind, hlog]
    rcases ht.exec_append (j.record x.2.report).line with ⟨t', happend, ht'⟩ | ⟨f, happend⟩
    · simp only [happend, exec_pure, extended_ok]
      exact ht'
    · simp only [happend, extended_error]
      exact ht

/-- An operation leaves its line in the log, unless it breaks off. -/
theorem logged_run (j : Job) (logged : j.world.logged = true)
    (spared : SameLog home m.tree (j.before m).tree) (h : Logged home lines m.tree) :
    Logged home (extended lines j (j.run home m).1) (j.run home m).2.tree := by
  obtain ⟨haside, houtcome⟩ := FileLock.attempted_acquire (setup j.newName j.world) home (j.before m)
    j.operation.command
  have ht := (h.of_sameLog spared).of_aside haside
  have hstart : exec ((j.manager home).start j.operation) (j.before m) =
      exec ((FileLock.onMachine (setup j.newName j.world) home).acquire j.operation.command)
        (j.before m) := rfl
  rw [run, Manager.perform, exec_bind, hstart]
  generalize exec ((FileLock.onMachine (setup j.newName j.world) home).acquire j.operation.command)
    (j.before m) = started at houtcome ht ⊢
  obtain ⟨result, t⟩ := started
  rcases houtcome with ⟨rfl, hhas, -⟩ | ⟨f, rfl⟩
  · have hbusy := busy_carryOut j logged ⟨hhas, ht⟩
    obtain ⟨u, hrelease, haside', -⟩ := FileLock.exec_release (setup j.newName j.world) hbusy.has
    have hfinish : exec ((j.manager home).finish j.operation) t =
        ((exec ((j.manager home).carryOut j.operation) t).1, u) :=
      Manager.exec_finish_of_release hrelease
    simp only [hfinish]
    exact hbusy.logged.of_aside haside'
  · dsimp only
    rw [extended_error]
    exact ht

def told (results : List (Job × Except Fault Performed)) : List OperationRecord :=
  results.flatMap fun x => x.1.records x.2

theorem told_cons (j : Job) (result : Except Fault Performed) (results : List (Job × Except Fault Performed)) :
    told ((j, result) :: results) = j.records result ++ told results :=
  List.flatMap_cons

theorem logged_runAll {jobs : List Job} (logged : ∀ j ∈ jobs, j.world.logged = true)
    (spared : ∀ j ∈ jobs, ∀ m, SameLog home m.tree (j.before m).tree) (h : Logged home lines m.tree) :
    Logged home (lines ++ (told (runAll home jobs m).1).map OperationRecord.line)
      (runAll home jobs m).2.tree := by
  induction jobs generalizing lines m with
  | nil =>
    rw [runAll, told, List.flatMap_nil, List.map_nil, List.append_nil]
    exact h
  | cons j js ih =>
    obtain ⟨hlogged, logged⟩ := List.forall_mem_cons.mp logged
    obtain ⟨hspared, spared⟩ := List.forall_mem_cons.mp spared
    have hrest := ih logged spared (j.logged_run hlogged (hspared m) h)
    rw [extended, List.append_assoc, ← List.map_append, ← told_cons] at hrest
    simp only [runAll]
    exact hrest

end Job

open Job Machine in
/-- The log of a home directory in which there was none tells of every operation that has come to a
report, one line after the other, and of nothing else. In between the operations, others may do whatever
they like elsewhere. -/
theorem log_tells_all {home : String} {m : Machine} (fresh : m.tree.find? (logPlace home) = none)
    {jobs : List Job} (logged : ∀ j ∈ jobs, j.world.logged = true)
    (spared : ∀ j ∈ jobs, ∀ m, SameLog home m.tree (j.before m).tree) :
    ∃ lines, Logged home lines (runAll home jobs m).2.tree ∧ (∀ line ∈ lines, '\n' ∉ line.toList) ∧
      List.Forall₂ (fun r line => ∃ v, Json.parse line = some v ∧ r.ToldBy v)
        (told (runAll home jobs m).1) lines := by
  have hnone : Logged home [] m.tree := ⟨fun _ => fresh, fun h => absurd rfl h⟩
  refine ⟨(told (runAll home jobs m).1).map OperationRecord.line, logged_runAll logged spared hnone,
    ?_, ?_⟩
  · refine List.forall_mem_map.mpr fun r _ => ?_
    exact Json.newline_not_mem_compact r.toJson
  · refine List.forall₂_map_right_iff.mpr (List.forall₂_same.mpr fun r _ => ?_)
    exact ⟨r.toJson, r.parse_line, r.toldBy_toJson⟩

namespace Machine

def besieged (m : Machine) : Machine :=
  { m with
    tree := m.tree.set (FileLock.place "/pro") (.file (LockHolder.toJson ⟨2, "pro detach", ""⟩).compact)
    running := [2] }

def relieved (m : Machine) : Machine :=
  { m with tree := m.tree.erase (FileLock.place "/pro"), running := [] }

end Machine

/-- Refreshing, detaching while another process has the lock, and enabling what is not there, by a name
with a newline that is given twice. -/
def Job.siege : List Job :=
  [⟨id, "1", Embedded.pairWorld, .refresh⟩,
    ⟨Machine.besieged, "2", Embedded.pairWorld, .detach⟩,
    ⟨Machine.relieved, "3\n", Embedded.pairWorld, .change .enable ["n\n", "n\n"] true false⟩]

theorem Job.spared_siege : ∀ j ∈ siege, ∀ m, Machine.SameLog "/pro" m.tree (j.before m).tree := by
  refine List.forall_mem_cons.mpr ⟨fun m => .refl _ _, List.forall_mem_cons.mpr ⟨fun m => ?_,
    List.forall_mem_singleton.mpr fun m => ?_⟩⟩
  · exact .of_sameOutside (show "lock" ≠ "logs" by decide) (FileTree.sameOutside_set _)
  · exact .of_sameOutside (show "lock" ≠ "logs" by decide) FileTree.sameOutside_erase

open Job Machine in
/-- The first and the last of the operations are told of, the one in between broke off. -/
theorem log_tells_all_siege :
    (told (runAll "/pro" siege broken).1).map (fun r => (r.eventId, r.action, r.requested)) =
        ([("1", .refresh, []), ("3\n", .enable, ["n\n", "n\n"])] : List (Text × Action × List Text)) ∧
      ∃ lines, Logged "/pro" lines (runAll "/pro" siege broken).2.tree ∧
        (∀ line ∈ lines, '\n' ∉ line.toList) ∧
        List.Forall₂ (fun r line => ∃ v, Json.parse line = some v ∧ r.ToldBy v)
          (told (runAll "/pro" siege broken).1) lines :=
  ⟨by decide +kernel, log_tells_all (by decide) (by decide) spared_siege⟩

end Subscription
