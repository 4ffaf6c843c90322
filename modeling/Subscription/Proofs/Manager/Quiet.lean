import Subscription.Manager.Host
import Subscription.Proofs.Manager.Bracket

/-!
Parts of the state that a manager has nothing to do with. What none of those touches that a manager works
with, no operation touches. What no file operation touches, and no cell of the process, the manager of a
machine leaves alone from the reading of the configuration on.
-/

namespace Subscription

variable {σ ν α β : Type} {view : σ → ν}

/-! ### Managers -/

theorem keeps_of_preserves {r : ExceptT Fault (StateM σ) α}
    (h : ∀ value, Preserves (view · = value) r) : Keeps view r :=
  fun s => h (view s) s rfl

theorem Keeps.preserves {r : ExceptT Fault (StateM σ) α} (h : Keeps view r) (value : ν) :
    Preserves (view · = value) r :=
  fun s hs => (h s).trans hs

/-- Nobody that a manager works with touches a part of the state. -/
structure Manager.Quiet (mgr : Manager (StateM σ)) (view : σ → ν) : Prop where
  acquire : ∀ command, Keeps view (mgr.lock.acquire command)
  release : Keeps view mgr.lock.release
  spares : ∀ value, mgr.Spares (view · = value)

namespace Manager.Quiet

variable {mgr : Manager (StateM σ)}

theorem keeps_attachment (h : mgr.Quiet view) : Keeps view mgr.attachment :=
  keeps_bind (keeps_of_preserves fun value => (h.spares value).reads) fun _ => keeps_pure _

theorem keeps_perform (h : mgr.Quiet view) (op : Operation) : Keeps view (mgr.perform op) := by
  refine keeps_bind (h.acquire op.command) fun _ s => ?_
  have hbody : Keeps view (mgr.carryOut op) :=
    keeps_of_preserves fun value => (h.spares value).preserves_carryOut op
  rw [Manager.finish, Serves.exec_thenRelease, ← hbody s]
  exact keeps_bind h.release (fun _ => keeps_except _) _

end Manager.Quiet

/-! ### Files, cells and the lock file -/

def Leaves (view : σ → ν) (x : StateM σ α) : Prop :=
  ∀ s, view (x.run s).2 = view s

theorem leaves_pure (a : α) : Leaves view (pure a : StateM σ α) :=
  fun _ => rfl

theorem leaves_bind {x : StateM σ α} {f : α → StateM σ β} (hx : Leaves view x)
    (hf : ∀ a, Leaves view (f a)) : Leaves view (x >>= f) :=
  fun s => (hf (x.run s).1 (x.run s).2).trans (hx s)

theorem keeps_ofFileResult {x : StateM σ (Except FileError α)} (h : Leaves view x) :
    Keeps view (ofFileResult x) :=
  h

structure Cell.Leaves (cell : Cell (StateM σ) α) (view : σ → ν) : Prop where
  get : Subscription.Leaves view cell.get
  set : ∀ a, Subscription.Leaves view (cell.set a)

structure FileSystem.Leaves (files : FileSystem (StateM σ)) (view : σ → ν) : Prop where
  read : ∀ path, Subscription.Leaves view (files.read path)
  write : ∀ path text, Subscription.Leaves view (files.write path text)
  append : ∀ path text, Subscription.Leaves view (files.append path text)
  create : ∀ path text, Subscription.Leaves view (files.create path text)
  remove : ∀ path, Subscription.Leaves view (files.remove path)
  makeDirs : ∀ path, Subscription.Leaves view (files.makeDirs path)
  isPresent : ∀ path, Subscription.Leaves view (files.isPresent path)

/-- What goes on below a process leaves a part of the state as it was: the files, the other processes, the
clock, and what the process notes for itself. -/
structure Host.Leaves (host : Host (StateM σ)) (view : σ → ν) : Prop where
  files : host.files.Leaves view
  isRunning : ∀ pid, Subscription.Leaves view (host.isRunning pid)
  now : Subscription.Leaves view host.now
  newName : Subscription.Leaves view host.newName
  held : host.held.Leaves view
  calls : host.calls.Leaves view

namespace Host.Leaves

variable {host : Host (StateM σ)} (h : host.Leaves view) (home : String)
include h

theorem keeps_tryCreate (command : Text) : Keeps view ((host.fileLock home).tryCreate command) := by
  refine keeps_bind (keeps_lift h.now) fun now =>
    keeps_bind (keeps_lift (h.files.create _ _)) fun result => ?_
  match result with
  | .ok () => exact keeps_bind (keeps_lift (h.held.set true)) fun _ => keeps_pure true
  | .error .taken => exact keeps_pure false
  | .error .missing | .error .isDirectory | .error .notDirectory | .error .notRemovable =>
    exact keeps_except _

theorem keeps_readHolder : Keeps view (host.fileLock home).readHolder := by
  refine keeps_bind (keeps_lift (h.files.read _)) fun result => ?_
  match result with
  | .ok text => exact keeps_pure _
  | .error .missing => exact keeps_pure none
  | .error .taken | .error .isDirectory | .error .notDirectory | .error .notRemovable =>
    exact keeps_except _

theorem keeps_liveHolder? : Keeps view (host.fileLock home).liveHolder? := by
  refine keeps_bind (h.keeps_readHolder home) fun holder => ?_
  cases holder with
  | none => exact keeps_pure none
  | some holder =>
    refine keeps_bind (keeps_lift ?_) fun alive => keeps_pure _
    unfold FileLock.isAlive
    split
    · split
      · exact h.isRunning _
      · exact leaves_pure false
    · exact leaves_pure false

theorem keeps_acquire (command : Text) : Keeps view ((host.fileLock home).acquire command) := by
  refine keeps_bind (h.keeps_tryCreate home command) fun made => ?_
  cases made with
  | true => exact keeps_pure ()
  | false =>
    refine keeps_bind (h.keeps_liveHolder? home) fun holder => ?_
    cases holder with
    | some holder => exact keeps_except _
    | none =>
      refine keeps_bind (keeps_ofFileResult (h.files.remove _)) fun _ =>
        keeps_bind (h.keeps_tryCreate home command) fun made => ?_
      cases made with
      | true => exact keeps_pure ()
      | false => exact keeps_bind (h.keeps_readHolder home) fun holder => keeps_except _

theorem keeps_release : Keeps view (host.fileLock home).release := by
  refine keeps_bind (keeps_lift h.held.get) fun held => ?_
  cases held with
  | true =>
    exact keeps_bind (keeps_ofFileResult (h.files.remove _)) fun _ => keeps_lift (h.held.set false)
  | false => exact keeps_pure ()

/-! ### The manager of a machine -/

theorem keeps_readValue (path : String) : Keeps view (Host.readValue host.files path) := by
  refine keeps_bind (keeps_lift (h.files.read path)) fun result => ?_
  match result with
  | .ok text =>
    dsimp only
    split
    · exact keeps_pure _
    · exact keeps_except _
  | .error .missing => exact keeps_pure none
  | .error .taken | .error .isDirectory | .error .notDirectory | .error .notRemovable =>
    exact keeps_except _

theorem keeps_read (name : String) : Keeps view ((Storage.inFiles host.files home).read name) := by
  refine leaves_bind (h.files.read _) fun result => ?_
  match result with
  | .ok text => exact leaves_pure _
  | .error .missing => exact leaves_pure _
  | .error .taken | .error .isDirectory | .error .notDirectory | .error .notRemovable =>
    exact leaves_pure _

theorem quiet_managerFor (config : Config) (inContainer : Bool) (series : Text) :
    (host.managerFor home config inContainer series).Quiet view where
  acquire command := h.keeps_acquire home command
  release := h.keeps_release home
  spares value := {
    reads := (h.keeps_read home _).preserves value
    writes := fun v => Keeps.preserves (keeps_bind (keeps_ofFileResult (h.files.makeDirs _)) fun _ =>
      keeps_ofFileResult (h.files.write _ _)) value
    appends := fun line => Keeps.preserves (keeps_bind (keeps_ofFileResult (h.files.makeDirs _)) fun _ =>
      keeps_ofFileResult (h.files.append _ _)) value
    contracts := fun token => Keeps.preserves (keeps_bind (h.keeps_readValue _) fun _ => keeps_pure _) value
    instanceToken := Keeps.preserves (keeps_bind (h.keeps_readValue _) fun _ => keeps_pure _) value
    calls := fun s hs => (h.calls.get s).trans hs
    recorded := fun calls s hs => (h.calls.set calls s).trans hs
    now := fun s hs => (h.now s).trans hs
    nextEvent := by
      intro x hx s hs
      dsimp only [Host.managerFor] at hx
      split_ifs at hx
      · cases hx
        exact (h.newName s).trans hs
      · cases hx }

theorem keeps_prepareHome : Keeps view (Host.prepareHome host.files home) := by
  refine keeps_bind (keeps_lift (h.files.isPresent home)) fun present => ?_
  cases present with
  | true => exact keeps_pure _
  | false => exact keeps_ofFileResult (h.files.makeDirs home)

theorem keeps_load : Keeps view (Config.load host.files home) := by
  refine keeps_bind (keeps_lift (h.files.read _)) fun result => ?_
  match result with
  | .ok text => exact keeps_pure _
  | .error .missing => exact keeps_pure _
  | .error .taken | .error .isDirectory | .error .notDirectory | .error .notRemovable =>
    exact keeps_except _

theorem leaves_isContainer (runDir : String) :
    Subscription.Leaves view (Host.isContainer host.files runDir) := by
  refine leaves_bind (h.files.isPresent _) fun marked => ?_
  cases marked with
  | true => exact leaves_pure _
  | false =>
    refine leaves_bind (h.files.isPresent _) fun marked => ?_
    cases marked <;> exact leaves_pure _

theorem keeps_detectSeries (path : Text) : Keeps view (OsRelease.detectSeries host.files path) := by
  refine keeps_bind (keeps_ofFileResult (h.files.read _)) fun text => ?_
  split
  · exact keeps_pure _
  · exact keeps_except _

theorem keeps_buildManager : Keeps view host.buildManager := by
  refine keeps_bind (h.keeps_prepareHome _) fun _ => keeps_bind (h.keeps_load _) fun loaded =>
    keeps_bind (keeps_lift (h.leaves_isContainer _)) fun inContainer => ?_
  dsimp only
  split
  · exact keeps_pure _
  · exact keeps_bind (h.keeps_detectSeries _) fun _ => keeps_pure _

theorem yields_buildManager : Yields host.buildManager fun made => made.1.Quiet view := by
  refine yields_bind' fun _ => yields_bind' fun _ => yields_bind' fun _ => ?_
  dsimp only
  split
  all_goals exact yields_bind' fun _ => yields_pure (h.quiet_managerFor _ _ _ _)

end Host.Leaves

/-! ### The output stream of a machine -/

namespace Machine

theorem leaves_update (change : FileTree → Except FileError FileTree) :
    Leaves out (update change : StateM Machine _) := by
  intro m
  rw [run_update]
  split <;> rfl

theorem leaves_intrude (p : Path.Target) : Leaves out (intrude p : StateM Machine _) := by
  intro m
  obtain ⟨tree, running, _ | text, held, calls, out, err, answer⟩ := m <;> rfl

theorem leaves_remove (p : Path.Target) : Leaves out (remove p : StateM Machine _) := by
  refine leaves_bind (leaves_update _) fun result => ?_
  match result with
  | .error e => exact leaves_pure _
  | .ok () => exact leaves_bind (leaves_intrude p) fun _ => leaves_pure _

theorem leaves_files : (files : FileSystem (StateM Machine)).Leaves out where
  read _ _ := rfl
  write path text := leaves_update fun t => t.write (Path.target path) text
  append path text := leaves_update fun t => t.append (Path.target path) text
  create path text := leaves_update fun t => t.create (Path.target path) text
  remove path := leaves_remove (Path.target path)
  makeDirs path := leaves_update fun t => t.makeDirs (Path.target path)
  isPresent _ _ := rfl

theorem leaves_host (setup : Setup) : (host setup : Host (StateM Machine)).Leaves out where
  files := leaves_files
  isRunning _ _ := rfl
  now _ := rfl
  newName _ := rfl
  held := ⟨fun _ => rfl, fun _ _ => rfl⟩
  calls := ⟨fun _ => rfl, fun _ _ => rfl⟩

end Machine

end Subscription
