import Subscription.Proofs.Storage.Contest

/-!
What a lock guarantees to those who go through it. It is granted while it is free, refused to everybody
while it is held, and free again when whoever has taken it gives it back. The lock in memory guarantees
this whatever else is done to the memory, and the lock file as long as no other process makes one of its
own in between.
-/

namespace Subscription

open FileTree

variable {σ α : Type}

/-- What a lock guarantees, in the states in which it is free, in those in which it is held, and in those
in which whoever has taken it goes on. -/
structure OperationLock.Guards (lock : OperationLock (StateM σ)) (free : σ → Prop)
    (heldBy : LockHolder → σ → Prop) (taken : σ → Prop) : Prop where
  grants : ∀ {s}, free s → ∀ command, ∃ t, exec (lock.acquire command) s = (.ok (), t) ∧ taken t
  refuses : ∀ {h s}, heldBy h s → ∀ command,
    exec (lock.acquire command) s = (.error (.lockHeld command h), s)
  releases : ∀ {s}, taken s → ∃ t, exec lock.release s = (.ok (), t) ∧ free t

/-! ### The lock in memory -/

structure Cell.Lawful (c : Cell (StateM σ) α) (value : σ → α) : Prop where
  get : ∀ s, c.get.run s = (value s, s)
  set : ∀ a s, value ((c.set a).run s).2 = a

section Memory

variable {pid : Number} {now : StateM σ String} {cell : Cell (StateM σ) (Option LockHolder)}
  {holder : σ → Option LockHolder} {command : Text} {s : σ}

theorem exec_acquire_inMemory (lawful : cell.Lawful holder) (command : Text) (s : σ) :
    exec ((OperationLock.inMemory pid now cell).acquire command) s =
      match holder s with
      | some h => (.error (.lockHeld command h), s)
      | none => exec (do cell.set (some ⟨pid, command, ← now⟩) : ExceptT Fault (StateM σ) Unit) s := by
  have hget : exec (liftM cell.get : ExceptT Fault (StateM σ) _) s = (.ok (holder s), s) := by
    rw [exec_lift, lawful.get]
  simp only [OperationLock.inMemory]
  rw [exec_bind, hget]
  cases holder s <;> rfl

/-- Nothing that is done to a memory keeps its lock from being given back. -/
theorem guards_inMemory (lawful : cell.Lawful holder) {taken : σ → Prop}
    (htaken : ∀ s, (holder s).isSome → taken s) :
    (OperationLock.inMemory pid now cell).Guards (holder · = none) (fun h s => holder s = some h)
      taken where
  grants {s} hs command := by
    let claim : Option LockHolder := some ⟨pid, command, (now.run s).1⟩
    refine ⟨((cell.set claim).run (now.run s).2).2, ?_, htaken _ ?_⟩
    · rw [exec_acquire_inMemory lawful, hs]
      rfl
    · rw [lawful.set]
      rfl
  refuses {h s} hs command := by rw [exec_acquire_inMemory lawful, hs]
  releases {s} _ := ⟨_, rfl, lawful.set none s⟩

end Memory

/-! ### The lock file -/

namespace FileLock

variable {home : String} (setup : Machine.Setup) {m : Machine} {h : LockHolder}

/-- Nobody has a claim to the lock: there is no lock file, or one that names no process that runs, and no
other process is about to make one. -/
structure Free (home : String) (m : Machine) : Prop where
  leads : m.tree.Leads (Path.fromRoot home)
  dead : ∀ node, m.tree.find? (place home) = some node → ∃ text, node = .file text ∧
    ∀ h, LockHolder.ofText? text = some h → ¬Contest.IsLive m.running h
  quiet : m.intruder = none

theorem free_of_none (hleads : m.tree.Leads (Path.fromRoot home))
    (hnone : m.tree.find? (place home) = none) (hquiet : m.intruder = none) : Free home m :=
  ⟨hleads, fun _ hnode => (nomatch hnone.symm.trans hnode), hquiet⟩

def HeldBy (home : String) (h : LockHolder) (m : Machine) : Prop :=
  Contest.holder? home m.tree = some h ∧ Contest.IsLive m.running h

def Taken (home : String) (m : Machine) : Prop :=
  Has home m ∧ m.intruder = none

def claimed (command : Text) : String :=
  (LockHolder.toJson ⟨setup.pid, command, setup.now⟩).compact

theorem exec_tryCreate_of_none (hleads : m.tree.Leads (Path.fromRoot home))
    (hfree : m.tree.find? (place home) = none) (command : Text) :
    exec ((onMachine setup home).tryCreate command) m =
      (.ok true, { m with
        tree := m.tree.set (place home) (.file (claimed setup command)), held := true }) := by
  rw [place, Path.place] at hfree
  rw [exec_tryCreate, target_pathIn, place, Path.place, create_child hleads, if_pos hfree]
  rfl

theorem exec_tryCreate_of_read {text : String} (hread : m.tree.read ⟨place home, false⟩ = .ok text)
    (command : Text) : exec ((onMachine setup home).tryCreate command) m = (.ok false, m) := by
  obtain ⟨hleads, hfile⟩ := read_eq_ok_iff.mp hread
  rw [exec_tryCreate, target_pathIn, place, Path.place, create_child hleads, if_neg]
  rw [hfile]
  exact Option.some_ne_none _

theorem exec_readHolder {text : String} (hread : m.tree.read ⟨place home, false⟩ = .ok text) :
    exec (onMachine setup home).readHolder m = (.ok (LockHolder.ofText? text), m) := by
  have hfiles : ∀ path, exec (liftM (Machine.files.read path : StateM Machine _)) m =
      (.ok (m.tree.read (Path.target path)), m) := fun _ => rfl
  rw [readHolder, exec_bind]
  simp only [onMachine, Host.fileLock, Machine.host, hfiles]
  rw [target_pathIn, hread]
  rfl

theorem exec_isAlive (h : LockHolder) (m : Machine) :
    exec (liftM ((onMachine setup home).isAlive h) : ExceptT Fault (StateM Machine) Bool) m =
      (.ok (decide (Contest.IsLive m.running h)), m) := by
  rw [isAlive]
  cases hpid : h.pid.toInt? with
  | none =>
    rw [show decide (Contest.IsLive m.running h) = false by simp [Contest.IsLive, hpid]]
    rfl
  | some n =>
    rw [show decide (Contest.IsLive m.running h) = decide (Contest.Runs m.running n) by
      simp [Contest.IsLive, hpid]]
    dsimp only
    split
    · next hn =>
      rw [show decide (Contest.Runs m.running n) = decide (n ∈ m.running) by simp [Contest.Runs, hn]]
      rfl
    · next hn =>
      rw [show decide (Contest.Runs m.running n) = false by simp [Contest.Runs, hn]]
      rfl

theorem exec_liveHolder? {text : String} (hread : m.tree.read ⟨place home, false⟩ = .ok text) :
    exec (onMachine setup home).liveHolder? m =
      (.ok ((LockHolder.ofText? text).filter fun h => Contest.IsLive m.running h), m) := by
  rw [liveHolder?, exec_bind, exec_readHolder setup hread]
  cases LockHolder.ofText? text with
  | none => rfl
  | some h =>
    simp only [exec_bind, exec_isAlive, exec_pure, Option.filter_some, decide_eq_true_eq]

theorem exec_acquire_of_heldBy (held : HeldBy home h m) (command : Text) :
    exec ((onMachine setup home).acquire command) m = (.error (.lockHeld command h), m) := by
  obtain ⟨text, hread, htext⟩ := Contest.holder?_eq_some_iff.mp held.1
  rw [acquire, exec_bind, exec_tryCreate_of_read setup hread]
  simp only [Bool.false_eq_true, if_false, exec_bind, exec_liveHolder? setup hread, htext, held.2,
    decide_true, Option.filter_some, if_true, exec_throw]

/-- What has changed on a machine when the lock has been taken. -/
structure Claimed (home : String) (setup : Machine.Setup) (command : Text) (m m' : Machine) : Prop where
  has : Has home m'
  quiet : m'.intruder = none
  running : m'.running = m.running
  read : m'.tree.read ⟨place home, false⟩ = .ok (claimed setup command)

theorem claimed_set (hleads : m.tree.Leads (Path.fromRoot home)) (quiet : m.intruder = none)
    (command : Text) : Claimed home setup command m { m with
      tree := m.tree.set (place home) (.file (claimed setup command)), held := true } := by
  have hset : (m.tree.set (place home) (.file (claimed setup command))).find? (place home) =
      some (.file (claimed setup command)) := find?_set_self _ _ (by simp [Path.place])
  have hleads' := (sameOutside_set (t := m.tree) (p := place home)
    (.file (claimed setup command))).leads hleads
  exact ⟨⟨hleads', ⟨_, hset⟩, rfl⟩, quiet, rfl, read_eq_ok_iff.mpr ⟨hleads', hset⟩⟩

/-- A free lock is taken, also from a process that has left it behind. -/
theorem exec_acquire_of_free (free : Free home m) (command : Text) :
    ∃ m', exec ((onMachine setup home).acquire command) m = (.ok (), m') ∧
      Claimed home setup command m m' := by
  rw [acquire, exec_bind]
  cases hnode : m.tree.find? (place home) with
  | none =>
    rw [exec_tryCreate_of_none setup free.leads hnode]
    exact ⟨_, rfl, claimed_set setup free.leads free.quiet command⟩
  | some node =>
    obtain ⟨text, rfl, hdead⟩ := free.dead node hnode
    obtain ⟨m₁, hrun, haside, hrunning, hquiet, hgone⟩ := Machine.run_remove free.leads hnode
    rw [free.quiet] at hgone
    have hread := read_eq_ok_iff.mpr ⟨free.leads, hnode⟩
    have hleads := haside.tree.leads free.leads
    have hclaimed := claimed_set setup hleads hquiet command
    refine ⟨_, ?_, hclaimed.has, hclaimed.quiet, hclaimed.running.trans hrunning, hclaimed.read⟩
    rw [exec_tryCreate_of_read setup hread]
    simp only [Bool.false_eq_true, if_false, exec_bind, exec_liveHolder? setup hread,
      Contest.filter_eq_none_of_dead hdead]
    rw [exec_remove, place, Path.place, hrun]
    simp only [exec_tryCreate_of_none setup hleads hgone]
    rfl

theorem Taken.release (taken : Taken home m) :
    ∃ m', exec (onMachine setup home).release m = (.ok (), m') ∧ Free home m' := by
  obtain ⟨m', hrelease, haside, hfree⟩ := exec_release setup taken.1
  obtain ⟨hquiet, hgone⟩ := hfree taken.2
  exact ⟨m', hrelease, free_of_none (haside.tree.leads taken.1.leads) hgone hquiet⟩

/-- Giving the lock back leaves the processes as they are. -/
theorem keeps_running_release : Keeps (·.running) (onMachine setup home).release := by
  refine keeps_bind (keeps_lift fun _ => rfl) fun held => ?_
  cases held with
  | false => exact keeps_pure ()
  | true =>
    refine keeps_bind (fun m => ?_) fun _ => keeps_lift fun _ => rfl
    have hrunning := Machine.running_remove ⟨place home, false⟩ m
    rw [exec_remove]
    rcases hrun : (Machine.remove ⟨place home, false⟩ : StateM Machine _).run m with ⟨e | _, m'⟩
    all_goals
      rw [hrun] at hrunning
      exact hrunning

theorem guards_onMachine (home : String) :
    (onMachine setup home).lock.Guards (Free home) (HeldBy home) (Taken home) where
  grants free command := by
    obtain ⟨m', hexec, hclaimed⟩ := exec_acquire_of_free setup free command
    exact ⟨m', hexec, hclaimed.has, hclaimed.quiet⟩
  refuses held command := exec_acquire_of_heldBy setup held command
  releases taken := taken.release setup

def Owned (home : String) (n : Int) (m : Machine) : Prop :=
  Taken home m ∧ Contest.Runs m.running n ∧ ∃ h, HeldBy home h m

/-- A process that runs holds the lock that it has taken against all others. -/
theorem guards_onMachine_of_runs {n : Int} (hpid : setup.pid = .ofInt n) (home : String) :
    (onMachine setup home).lock.Guards (fun m => Free home m ∧ Contest.Runs m.running n)
      (HeldBy home) (Owned home n) where
  grants {m} hm command := by
    obtain ⟨m', hexec, hclaimed⟩ := exec_acquire_of_free setup hm.1 command
    have hruns : Contest.Runs m'.running n := hclaimed.running ▸ hm.2
    have hsmall : n.natAbs < 2 ^ 52 := by
      obtain ⟨hlow, hhigh⟩ := hruns.1
      omega
    refine ⟨m', hexec, ⟨hclaimed.has, hclaimed.quiet⟩, hruns, ⟨setup.pid, command, setup.now⟩, ?_, ?_⟩
    · refine Contest.holder?_eq_some_iff.mpr ⟨_, hclaimed.read, ?_⟩
      rw [claimed, hpid]
      exact LockHolder.ofText?_toJson hsmall command setup.now
    · exact ⟨n, by rw [hpid]; exact Number.toInt?_ofInt hsmall, hruns⟩
  refuses held command := exec_acquire_of_heldBy setup held command
  releases {m} owned := by
    obtain ⟨m', hrelease, free⟩ := owned.1.release setup
    have hrunning : (exec (onMachine setup home).release m).2.running = m.running :=
      keeps_running_release setup m
    rw [hrelease] at hrunning
    exact ⟨m', hrelease, free, hrunning.symm ▸ owned.2.1⟩

end FileLock

end Subscription
