import Subscription.Proofs.Manager.InMemory
import Subscription.Proofs.Manager.OnDisk
import Subscription.Proofs.Manager.Watched
import Subscription.Proofs.Storage.Guard

/-!
An operation and its lock. An operation that the lock refuses asks nobody for anything. One that it does
not refuse gives the lock back at the end, wherever it breaks off; in between it reads the store, resolves,
writes to the store if and only if the resolution has a next attachment, and adds one record to the log,
unless it has broken off by then.
-/

namespace Subscription

variable {σ : Type}

namespace Manager

section Parts

variable {m : Type → Type} [Monad m]

/-- An operation up to where the store is written: the attachment that was read, and what the operation
comes to on it. -/
def resolved (mgr : Manager m) (op : Operation) : ExceptT Fault m (Attachment × Resolution) := do
  let a ← mgr.attachment
  return (a, ← mgr.resolve op a)

def keep (mgr : Manager m) (r : Resolution) : ExceptT Fault m Unit :=
  match r.next with
  | some next => mgr.storage.writeAttachment next
  | none => pure ()

def unlogged (mgr : Manager m) (op : Operation) : ExceptT Fault m (Attachment × Resolution) := do
  let x ← mgr.resolved op
  mgr.keep x.2
  return x

theorem carryOut_eq [LawfulMonad m] (mgr : Manager m) (op : Operation) :
    mgr.carryOut op = (do
      let x ← mgr.unlogged op
      mgr.log op x.2.report
      return ⟨x.2.report, x.2.attachment x.1⟩) := by
  simp only [carryOut, unlogged, resolved, keep, bind_assoc, pure_bind]
  refine bind_congr fun a => bind_congr fun r => ?_
  cases r.next with
  | none => simp only [pure_bind]
  | some next => rfl

end Parts

variable {mgr : Manager (StateM σ)} {I : σ → Prop} {op : Operation} {s : σ}

/-! ### What is asked for while an operation has the lock -/

/-- What is written to the store for an operation that has come to its resolution: the next attachment, if
there is one. -/
def storing : Except Fault (Attachment × Resolution) → List Event
  | .ok x => x.2.next.toList.map fun a => .write Storage.attachmentName a.toJson
  | .error _ => []

/-- What is added to the log for an operation that has come as far as this: one record, if there is a log
at all. -/
def Logs (mgr : Manager (StateM σ)) (op : Operation) (reached : Except Fault (Attachment × Resolution))
    (asked : List Event) : Prop :=
  match reached, mgr.nextEvent with
  | .ok x, some _ => ∃ id now, asked = [.append Storage.operationLog
      (OperationRecord.line ⟨id, now, op.action, op.requested, x.2.report⟩)]
  | _, _ => asked = []

def Course (mgr : Manager (StateM σ)) (op : Operation) (s : σ) (asked : List Event) : Prop :=
  ∃ looked logged, asked = .read Storage.attachmentName ::
      (looked ++ storing (exec (mgr.resolved op) s).1 ++ logged) ∧
    (∀ e ∈ looked, e.Resolves) ∧ mgr.Logs op (exec (mgr.unlogged op) s).1 logged

namespace Spares

theorem preserves_resolved (h : mgr.Spares I) (op : Operation) : Preserves I (mgr.resolved op) := by
  refine preserves_bind (preserves_bind h.reads fun v => preserves_pure _) fun a => ?_
  exact preserves_bind (fun s hs => (h.notes_resolve op a s hs).1) fun r => preserves_pure _

theorem preserves_keep (h : mgr.Spares I) (r : Resolution) : Preserves I (mgr.keep r) := by
  unfold keep
  cases r.next with
  | none => exact preserves_pure ()
  | some next => exact h.writes _

theorem preserves_unlogged (h : mgr.Spares I) (op : Operation) : Preserves I (mgr.unlogged op) :=
  preserves_bind (h.preserves_resolved op) fun x =>
    preserves_bind (h.preserves_keep x.2) fun _ => preserves_pure x

theorem preserves_log (h : mgr.Spares I) (op : Operation) (r : Report) :
    Preserves I (mgr.log op r) := by
  unfold log
  cases hnext : mgr.nextEvent with
  | none => exact preserves_pure ()
  | some nextEvent =>
    exact preserves_bind h.now fun now =>
      preserves_bind (h.nextEvent nextEvent hnext) fun id => h.appends _

theorem preserves_carryOut (h : mgr.Spares I) (op : Operation) : Preserves I (mgr.carryOut op) := by
  rw [carryOut_eq]
  exact preserves_bind (h.preserves_unlogged op) fun x =>
    preserves_bind (h.preserves_log op x.2.report) fun _ => preserves_pure _

end Spares

theorem adds_attachment (mgr : Manager (StateM σ)) (s : σ) :
    Adds mgr.watched.attachment mgr.attachment s [⟨.read Storage.attachmentName, s⟩] :=
  (adds_asking _ _ s).bind_silent fun _ => adds_pure _

/-- Reading and resolving. -/
theorem Spares.adds_resolved (h : mgr.Spares I) (op : Operation) (hs : I s) :
    ∃ asked looked, Adds (mgr.watched.resolved op) (mgr.resolved op) s asked ∧
      asked.map (·.event) = .read Storage.attachmentName :: looked ∧
      (∀ e ∈ looked, e.Resolves) ∧ ∀ x ∈ asked, I x.state := by
  have hadds := mgr.adds_attachment s
  have hread : Preserves I mgr.attachment := preserves_bind h.reads fun v => preserves_pure _
  rcases hexec : exec mgr.attachment s with ⟨f | a, t⟩
  · exact ⟨_, [], hadds.bind_error hexec, rfl, nofun, List.forall_mem_singleton.mpr hs⟩
  · have ht := hread s hs
    rw [hexec] at ht
    obtain ⟨-, looked, hadds', hlooked⟩ := h.notes_resolve op a t ht
    refine ⟨_, looked.map (·.event), hadds.bind hexec (hadds'.bind_silent fun r => adds_pure (a, r)),
      rfl, ?_, ?_⟩
    · exact List.forall_mem_map.mpr fun x hx => (hlooked x hx).1
    · exact List.forall_mem_cons.mpr ⟨hs, fun x hx => (hlooked x hx).2⟩

theorem adds_keep (mgr : Manager (StateM σ)) (a : Attachment) (r : Resolution) (s : σ) :
    Adds (mgr.watched.keep r) (mgr.keep r) s ((storing (.ok (a, r))).map (⟨·, s⟩)) := by
  unfold keep storing
  dsimp only
  cases r.next with
  | none => exact adds_pure () s
  | some next => exact adds_asking _ _ s

/-- Reading, resolving and writing. -/
theorem Spares.adds_unlogged (h : mgr.Spares I) (op : Operation) (hs : I s) :
    ∃ asked looked, Adds (mgr.watched.unlogged op) (mgr.unlogged op) s asked ∧
      asked.map (·.event) = .read Storage.attachmentName ::
        (looked ++ storing (exec (mgr.resolved op) s).1) ∧
      (∀ e ∈ looked, e.Resolves) ∧ ∀ x ∈ asked, I x.state := by
  obtain ⟨asked, looked, hadds, hevents, hlooked, hstates⟩ := h.adds_resolved op hs
  have ht := h.preserves_resolved op s hs
  rcases hexec : exec (mgr.resolved op) s with ⟨f | x, t⟩
  · refine ⟨asked, looked, hadds.bind_error hexec, ?_, hlooked, hstates⟩
    rw [hevents, storing, List.append_nil]
  · rw [hexec] at ht
    refine ⟨_, looked, hadds.bind hexec ((mgr.adds_keep x.1 x.2 t).bind_silent fun _ => adds_pure x),
      ?_, hlooked, List.forall_mem_append.mpr ⟨hstates, List.forall_mem_map.mpr fun _ _ => ht⟩⟩
    simp [hevents, Function.comp_def]

theorem Spares.adds_log (h : mgr.Spares I) (op : Operation) (x : Attachment × Resolution) (hs : I s) :
    ∃ logged, Adds (mgr.watched.log op x.2.report) (mgr.log op x.2.report) s logged ∧
      mgr.Logs op (.ok x) (logged.map (·.event)) ∧ ∀ y ∈ logged, I y.state := by
  unfold log Logs
  simp only [watched]
  cases hnext : mgr.nextEvent with
  | none => exact ⟨[], adds_pure () s, rfl, nofun⟩
  | some nextEvent =>
    have hu := h.nextEvent nextEvent hnext _ (h.now s hs)
    refine ⟨_, (adds_noting [] _ s).bind rfl ((adds_noting [] _ _).bind rfl (adds_asking _ _ _)),
      ⟨_, _, rfl⟩, fun y hy => ?_⟩
    rw [List.mem_singleton.mp hy]
    exact hu

/-- What an operation asks for that has the lock. -/
theorem Spares.adds_carryOut (h : mgr.Spares I) (op : Operation) (hs : I s) :
    ∃ asked, Adds (mgr.watched.carryOut op) (mgr.carryOut op) s asked ∧
      mgr.Course op s (asked.map (·.event)) ∧ ∀ x ∈ asked, I x.state := by
  obtain ⟨asked, looked, hadds, hevents, hlooked, hstates⟩ := h.adds_unlogged op hs
  have ht := h.preserves_unlogged op s hs
  rw [carryOut_eq, carryOut_eq]
  rcases hexec : exec (mgr.unlogged op) s with ⟨f | x, t⟩
  · refine ⟨asked, hadds.bind_error hexec, ⟨looked, [], ?_, hlooked, ?_⟩, hstates⟩
    · rw [hevents, List.append_nil]
    · rw [hexec]
      rfl
  · rw [hexec] at ht
    obtain ⟨logged, hadds', hlogs, hstates'⟩ := h.adds_log op x ht
    refine ⟨_, hadds.bind hexec (hadds'.bind_silent fun _ => adds_pure _),
      ⟨looked, logged.map (·.event), ?_, hlooked, by rwa [hexec]⟩,
      List.forall_mem_append.mpr ⟨hstates, hstates'⟩⟩
    rw [List.map_append, hevents, List.cons_append]

/-! ### What a lock makes of an operation -/

def asks (mgr : Manager (StateM σ)) (op : Operation) (s : σ) : List Event :=
  (exec (mgr.watched.perform op) ⟨s, []⟩).2.trace.map (·.event)

/-- What is true of an operation from its beginning to its end. A lock that is held refuses it, without
anything being asked or changed. A lock that is free is taken first and given back last, and is free again
at the end; when the operation comes to its end, its report is the one that was logged. Being watched makes
no difference. -/
structure Bracketed (mgr : Manager (StateM σ)) (free : σ → Prop) (heldBy : LockHolder → σ → Prop)
    (op : Operation) (s : σ) : Prop where
  watched : ∃ notes, Adds (mgr.watched.perform op) (mgr.perform op) s notes
  refused : ∀ h, heldBy h s → exec (mgr.perform op) s = (.error (.lockHeld op.command h), s) ∧
    mgr.asks op s = [.acquire op.command]
  carried : free s → free (exec (mgr.perform op) s).2 ∧
    ∃ t asked, exec (mgr.start op) s = (.ok (), t) ∧
      mgr.asks op s = .acquire op.command :: (asked ++ [.release]) ∧ mgr.Course op t asked ∧
      ∀ done, (exec (mgr.perform op) s).1 = .ok done → ∃ a r,
        (exec (mgr.unlogged op) t).1 = .ok (a, r) ∧ done = ⟨r.report, r.attachment a⟩

theorem asks_eq {notes : List (Moment σ)} (h : Adds (mgr.watched.perform op) (mgr.perform op) s notes) :
    mgr.asks op s = notes.map (·.event) := by
  rw [asks, h]
  rfl

theorem unlogged_of_carryOut {done : Performed} (h : (exec (mgr.carryOut op) s).1 = .ok done) :
    ∃ a r, (exec (mgr.unlogged op) s).1 = .ok (a, r) ∧ done = ⟨r.report, r.attachment a⟩ := by
  rw [carryOut_eq] at h
  obtain ⟨x, t, hunlogged, hrest⟩ := exec_bind_eq_ok.mp (Prod.ext h rfl)
  obtain ⟨-, u, -, hdone⟩ := exec_bind_eq_ok.mp hrest
  exact ⟨x.1, x.2, by rw [hunlogged], (Except.ok.inj (congrArg Prod.fst hdone)).symm⟩

/-- Giving the lock back is the last thing that is asked for. -/
theorem adds_finish {asked : List (Moment σ)}
    (h : Adds (mgr.watched.carryOut op) (mgr.carryOut op) s asked) :
    Adds (mgr.watched.finish op) (mgr.finish op) s
      (asked ++ [⟨.release, (exec (mgr.carryOut op) s).2⟩]) := by
  have hrelease : Adds (do
        mgr.watched.lock.release
        ExceptT.mk (pure (exec (mgr.carryOut op) s).1)) (do
        mgr.lock.release
        ExceptT.mk (pure (exec (mgr.carryOut op) s).1)) (exec (mgr.carryOut op) s).2
      [⟨.release, (exec (mgr.carryOut op) s).2⟩] :=
    (adds_asking _ _ _).bind_silent fun _ => adds_except _
  intro trace
  rw [finish, finish, Serves.exec_thenRelease, Serves.exec_thenRelease, h, ← List.append_assoc]
  exact hrelease (trace ++ asked)

theorem exists_adds_perform (mgr : Manager (StateM σ)) (op : Operation) (s : σ) :
    ∃ notes, Adds (mgr.watched.perform op) (mgr.perform op) s notes := by
  rcases hstart : exec (mgr.start op) s with ⟨f | _, t⟩
  · exact ⟨_, (mgr.adds_start op s).bind_error hstart⟩
  · obtain ⟨asked, hadds, -⟩ := mgr.spares_true.adds_carryOut op (trivial : True)
    exact ⟨_, (mgr.adds_start op s).bind hstart (adds_finish hadds)⟩

/-- Nothing is written for an operation that leaves what is stored as it was. -/
theorem not_mem_asks_write {t : σ} {a : Attachment} {r : Report}
    (hstart : exec (mgr.start op) s = (.ok (), t))
    (hresolved : (exec (mgr.resolved op) t).1 = .ok (a, ⟨r, none⟩)) (name : String) (value : Json) :
    .write name value ∉ mgr.asks op s := by
  obtain ⟨asked, hadds, ⟨looked, logged, hevents, hlooked, hlogs⟩, -⟩ :=
    mgr.spares_true.adds_carryOut (s := t) op trivial
  have hlogged : .write name value ∉ logged := by
    intro hmem
    unfold Logs at hlogs
    split at hlogs
    · obtain ⟨id, now, rfl⟩ := hlogs
      simp at hmem
    · rw [hlogs] at hmem
      cases hmem
  rw [asks_eq ((mgr.adds_start op s).bind hstart (adds_finish hadds)), List.map_append,
    List.map_append, hevents, hresolved]
  intro hmem
  simp only [List.map_cons, List.map_nil, List.cons_append, List.nil_append, List.mem_cons,
    List.mem_append, storing, Option.toList_none, List.append_nil, List.not_mem_nil, or_false,
    reduceCtorEq, false_or] at hmem
  exact hmem.elim (hlooked _) hlogged

theorem exec_finish_of_release {t : σ}
    (h : exec mgr.lock.release (exec (mgr.carryOut op) s).2 = (.ok (), t)) :
    exec (mgr.finish op) s = ((exec (mgr.carryOut op) s).1, t) := by
  rw [finish, Serves.exec_thenRelease, exec_bind, h]
  rfl

section Guards

variable {free : σ → Prop} {heldBy : LockHolder → σ → Prop} {taken : σ → Prop}

theorem exec_finish_of_taken (guards : mgr.lock.Guards free heldBy taken) (spares : mgr.Spares taken)
    (op : Operation) (hs : taken s) :
    ∃ t, exec (mgr.finish op) s = ((exec (mgr.carryOut op) s).1, t) ∧ free t := by
  obtain ⟨t, hrelease, ht⟩ := guards.releases (spares.preserves_carryOut op s hs)
  exact ⟨t, exec_finish_of_release hrelease, ht⟩

/-- What a lock guarantees makes it a bracket around every operation. -/
theorem bracketed (guards : mgr.lock.Guards free heldBy taken) (spares : mgr.Spares taken)
    (op : Operation) (s : σ) : mgr.Bracketed free heldBy op s where
  watched := mgr.exists_adds_perform op s
  refused h hs := by
    have hstart : exec (mgr.start op) s = (.error (.lockHeld op.command h), s) :=
      guards.refuses hs op.command
    refine ⟨?_, asks_eq ((mgr.adds_start op s).bind_error hstart)⟩
    rw [perform, exec_bind, hstart]
  carried hs := by
    obtain ⟨t, hstart, ht⟩ := guards.grants hs op.command
    obtain ⟨asked, hadds, hcourse, -⟩ := spares.adds_carryOut op ht
    obtain ⟨u, hfinish, hu⟩ := exec_finish_of_taken guards spares op ht
    have hperform : exec (mgr.perform op) s = ((exec (mgr.carryOut op) t).1, u) := by
      rw [perform, exec_bind, start, hstart]
      exact hfinish
    rw [hperform]
    refine ⟨hu, t, asked.map (·.event), hstart, ?_, hcourse, fun done => unlogged_of_carryOut⟩
    rw [asks_eq ((mgr.adds_start op s).bind hstart (adds_finish hadds)), List.map_append,
      List.map_append]
    rfl

end Guards

end Manager

/-! ### The collaborators of a manager on files -/

namespace Machine

open FileTree

variable {newName home directory name : String}

/-- What may be the case on a machine whatever stands in the home directory beside the lock file, and
whatever calls have been made. -/
structure AboutLock (home : String) (I : Machine → Prop) : Prop where
  leads : ∀ {m}, I m → m.tree.Leads (Path.fromRoot home)
  tree : ∀ {m u} {directory : String}, directory ≠ "lock" →
    SameOutside (Path.place home directory) m.tree u → I m → I { m with tree := u }
  calls : ∀ {m} calls, I m → I { m with calls := calls }

theorem aboutLock_has (home : String) : AboutLock home (FileLock.Has home) where
  leads h := h.leads
  tree hne hsame h := has_of_sameOutside hne hsame h
  calls _ h := ⟨h.leads, h.file, h.held⟩

theorem aboutLock_taken (home : String) : AboutLock home (FileLock.Taken home) where
  leads h := h.1.leads
  tree hne hsame h := ⟨(aboutLock_has home).tree hne hsame h.1, h.2⟩
  calls calls h := ⟨(aboutLock_has home).calls calls h.1, h.2⟩

section Change

variable {I : Machine → Prop} (leads : ∀ {m}, I m → m.tree.Leads (Path.fromRoot home))
  (tree : ∀ {m u}, SameOutside (Path.place home directory) m.tree u → I m → I { m with tree := u })
include leads tree

theorem preserves_update {change : FileTree → Except FileError FileTree}
    (hchange : ∀ t u, t.Leads (Path.fromRoot home) → change t = .ok u →
      SameOutside (Path.place home directory) t u) : Preserves I (ofFileResult (update change)) := by
  intro m hm
  rw [exec_update]
  cases hupdate : change m.tree with
  | error e => exact hm
  | ok u => exact tree (hchange _ _ (leads hm) hupdate) hm

/-- Changing a file below the home directory, in whatever state that is. -/
theorem preserves_change (hdirectory : Path.IsName directory) (hname : Path.IsName name)
    (change : String → String) :
    Preserves I (do
      ofFileResult (files.makeDirs (Path.join [home, directory]))
      ofFileResult (update
        (·.modify (Path.target (Path.join [Path.join [home, directory], name])) change))) := by
  rw [makeDirs_files]
  refine preserves_bind (preserves_update leads tree fun t u hleads hmake => ?_) fun _ =>
    preserves_update leads tree fun t u _ hmodify => ?_
  · rw [Path.target_join hdirectory] at hmake
    exact sameOutside_makeDirs hleads hmake
  · rw [target_below hdirectory hname] at hmodify
    obtain ⟨-, old, rfl⟩ := modify_eq_ok hmodify
    exact (sameOutside_set _).mono (List.prefix_append _ _)

end Change

section Storage

variable {I : Machine → Prop}

theorem preserves_read (I : Machine → Prop) (home name : String) :
    Preserves I ((Storage.inFiles files home).read name) := by
  intro m hm
  rw [exec_read]
  rcases m.tree.read (Path.target (Storage.valuePath home name)) with (_ | _ | _ | _ | _) | text
  all_goals exact hm

theorem preserves_write (leads : ∀ {m}, I m → m.tree.Leads (Path.fromRoot home))
    (tree : ∀ {m u}, SameOutside (Path.place home "state") m.tree u → I m → I { m with tree := u })
    (hname : Path.IsName name) (value : Json) :
    Preserves I ((Storage.inFiles files home).write name value) := by
  simp only [Storage.inFiles, Storage.valuePath, write_files]
  exact preserves_change leads tree isName_state hname _

theorem preserves_append (leads : ∀ {m}, I m → m.tree.Leads (Path.fromRoot home))
    (tree : ∀ {m u}, SameOutside (Path.place home "logs") m.tree u → I m → I { m with tree := u })
    (hname : Path.IsName name) (line : String) :
    Preserves I ((Storage.inFiles files home).append name line) := by
  simp only [Storage.inFiles, Storage.logPath, append_files]
  exact preserves_change leads tree isName_logs hname _

end Storage

namespace AboutLock

variable {I : Machine → Prop}

/-- Whatever comes of what an operation asks for on files, it does not go to the lock file. -/
theorem spares_manager (h : AboutLock home I) (newName : String) (w : Embedded.World) :
    (manager newName home w).Spares I where
  reads := preserves_read I home Storage.attachmentName
  writes := preserves_write h.leads (h.tree (by decide)) isName_attachmentName
  appends := preserves_append h.leads (h.tree (by decide)) isName_operationLog
  contracts _ _ hm := hm
  instanceToken _ hm := hm
  calls _ hm := hm
  recorded calls _ hm := h.calls calls hm
  now _ hm := hm
  nextEvent x hx m hm := by
    rw [nextEvent_manager] at hx
    split_ifs at hx
    · cases hx
      exact hm
    · cases hx

end AboutLock

end Machine

/-! ### Operations between two locks -/

/-- Every operation is bracketed by the lock, whoever the manager works with, and whatever these answer or
throw: by the lock in memory, and by the lock file as long as the others leave it alone. -/
theorem operations_are_bracketed (op : Operation) :
    (∀ {σ : Type} (mgr : Manager (StateM σ)) (pid : Number) (now : StateM σ String)
        (cell : Cell (StateM σ) (Option LockHolder)) (holder : σ → Option LockHolder),
      cell.Lawful holder → mgr.lock = .inMemory pid now cell →
      ∀ s, mgr.Bracketed (holder · = none) (fun h s => holder s = some h) op s) ∧
    ∀ (mgr : Manager (StateM Machine)) (setup : Machine.Setup) (home : String),
      mgr.lock = (FileLock.onMachine setup home).lock → mgr.Spares (FileLock.Taken home) →
      ∀ m, mgr.Bracketed (FileLock.Free home) (FileLock.HeldBy home) op m := by
  constructor
  · intro σ mgr pid now cell holder lawful hlock s
    have guards : mgr.lock.Guards (holder · = none) (fun h s => holder s = some h) fun _ => True :=
      hlock ▸ guards_inMemory lawful fun _ _ => trivial
    exact Manager.bracketed guards mgr.spares_true op s
  · intro mgr setup home hlock spares m
    have guards : mgr.lock.Guards (FileLock.Free home) (FileLock.HeldBy home) (FileLock.Taken home) :=
      hlock ▸ FileLock.guards_onMachine setup home
    exact Manager.bracketed guards spares op m

theorem Embedded.lawful_holderCell :
    (Embedded.holderCell : Cell (StateM Embedded) _).Lawful (·.holder) :=
  ⟨fun _ => rfl, fun _ _ => rfl⟩

theorem FileLock.free_broken : FileLock.Free "/pro" .broken :=
  free_of_none Machine.alone_broken.1 Machine.alone_broken.2.1 rfl

open Embedded in
/-- Enabling a service, in memory and on files, while the lock is free and while it is held. -/
theorem operations_are_bracketed_pair :
    (manager pairWorld : Manager (StateM Embedded)).Bracketed (·.holder = none)
        (fun h e => e.holder = some h) (.change .enable ["a"] true false) .empty ∧
      (Machine.manager "event" "/pro" pairWorld).Bracketed (FileLock.Free "/pro")
        (FileLock.HeldBy "/pro") (.change .enable ["a"] true false) .broken ∧
      Embedded.empty.holder = none ∧ FileLock.Free "/pro" .broken := by
  obtain ⟨hmemory, hfiles⟩ := operations_are_bracketed (.change .enable ["a"] true false)
  exact ⟨hmemory (manager pairWorld) _ _ _ _ lawful_holderCell rfl .empty,
    hfiles _ (Machine.setup "event" pairWorld) "/pro" rfl
      ((Machine.aboutLock_taken "/pro").spares_manager _ _) .broken,
    rfl, FileLock.free_broken⟩

end Subscription
