import Subscription.Proofs.Files.Path
import Subscription.Proofs.Json.Objects
import Subscription.Proofs.Storage.Lock
import Subscription.Storage.Contest

/-!
The lock file in the hands of several contenders. A file that a contender has made names it to the
others. An attempt to take the lock either makes the file or leaves those who have the lock as they are; it
changes nothing at all while the file names a process that runs, and it comes too late if another process
makes the file anew once that of a dead process has been removed.
-/

namespace Subscription

/-! ### The holder that a lock file names -/

namespace LockHolder

/-- A lock file names the one who made it. -/
theorem ofText?_toJson {n : Int} (h : n.natAbs < 2 ^ 52) (command acquiredAt : Text) :
    ofText? (toJson ⟨.ofInt n, command, acquiredAt⟩).compact =
      some ⟨.ofInt n, command, acquiredAt⟩ := by
  have hkeys : (["pid", "command", "acquired_at"] : List Text).Nodup ∧
      ∀ k ∈ (["pid", "command", "acquired_at"] : List Text), Json.indexKey? k = none := by decide
  have hplain : (toJson ⟨.ofInt n, command, acquiredAt⟩).Plain := by
    refine .object (fun f hf => ?_) (Json.ofMembers_of_nodup hkeys.1 hkeys.2)
    simp only [List.mem_cons, List.not_mem_nil, or_false] at hf
    rcases hf with rfl | rfl | rfl
    · exact .number (Json.isNumeral_ofInt h)
    · exact .string command
    · exact .string acquiredAt
  rw [ofText?, hplain.parse_compact]
  rfl

end LockHolder

namespace Contest

open FileTree

variable {α β : Type}

/-! ### Computations of a contender -/

/-- How a contest stands: the contenders that have the lock, and the machine. -/
structure Standing where
  holding : List Nat
  machine : Machine

def exec (r : ExceptT Fault Contest α) (s : Standing) : Except Fault α × Standing :=
  let x := (r.run.run s.holding).run s.machine
  (x.1.1, ⟨x.1.2, x.2⟩)

theorem exec_pure (a : α) (s : Standing) : exec (pure a) s = (.ok a, s) := rfl

theorem exec_bind (r : ExceptT Fault Contest α) (f : α → ExceptT Fault Contest β) (s : Standing) :
    exec (r >>= f) s =
      match exec r s with
      | (.ok a, t) => exec (f a) t
      | (.error e, t) => (.error e, t) := by
  show (let x := ((r.run >>= ExceptT.bindCont fun a => f a).run s.holding).run s.machine
    (x.1.1, Standing.mk x.1.2 x.2)) = _
  rw [StateT.run_bind, StateT.run_bind]
  simp only [exec]
  rcases (r.run.run s.holding).run s.machine with ⟨⟨_ | a, holding⟩, m⟩ <;> rfl

/-! ### The lock of a contender -/

variable {home now : String} {pid : Number} {c : Nat} {command : Text} {s : Standing}

def joined (c : Nat) (holding : List Nat) : List Nat :=
  c :: holding.filter (· ≠ c)

theorem exec_update (change : FileTree → Except FileError FileTree) :
    exec (liftM (Machine.update change : Contest _)) s =
      match change s.machine.tree with
      | .ok u => (.ok (.ok ()), { s with machine := { s.machine with tree := u } })
      | .error e => (.ok (.error e), s) := by
  show (let x := s.machine.tree.attempt change
    (Except.ok x.2, Standing.mk s.holding { s.machine with tree := x.1 })) = _
  rw [FileTree.attempt]
  rcases change s.machine.tree with e | u <;> rfl

theorem exec_tryCreate :
    exec ((fileLock home now pid c).tryCreate command) s =
      match s.machine.tree.create ⟨FileLock.place home, false⟩
        (LockHolder.toJson ⟨pid, command, now⟩).compact with
      | .ok u => (.ok true, ⟨joined c s.holding, { s.machine with tree := u }⟩)
      | .error .taken => (.ok false, s)
      | .error e => (.error (.file e), s) := by
  rw [← FileLock.target_pathIn]
  have hnow : exec (liftM (fileLock home now pid c).now) s = (.ok now, s) := rfl
  rw [FileLock.tryCreate, exec_bind, hnow]
  dsimp only [fileLock, Machine.files]
  -- What is written to the file does not matter here.
  generalize (LockHolder.toJson ⟨pid, command, now⟩).compact = text
  rw [exec_bind, exec_update]
  rcases s.machine.tree.create (Path.target (FileLock.pathIn home)) text with
    (_ | _ | _ | _ | _) | u
  all_goals rfl

theorem exec_readHolder :
    exec (fileLock home now pid c).readHolder s =
      match s.machine.tree.read ⟨FileLock.place home, false⟩ with
      | .ok text => (.ok (LockHolder.ofText? text), s)
      | .error .missing => (.ok none, s)
      | .error e => (.error (.file e), s) := by
  rw [← FileLock.target_pathIn]
  have hread : exec (liftM ((fileLock home now pid c).files.read (FileLock.pathIn home))) s =
      (.ok (s.machine.tree.read (Path.target (FileLock.pathIn home))), s) := rfl
  show exec (liftM ((fileLock home now pid c).files.read (FileLock.pathIn home)) >>= _) s = _
  rw [exec_bind, hread]
  rcases s.machine.tree.read (Path.target (FileLock.pathIn home)) with (_ | _ | _ | _ | _) | text
  all_goals rfl

/-- Removing a file does nothing to those who have the lock. -/
theorem run_remove (p : Path.Target) (holding : List Nat) (m : Machine) :
    ((Machine.remove p : Contest _).run holding).run m =
      let x := (Machine.remove p : StateM Machine _).run m
      ((x.1, holding), x.2) := by
  have hthere : ((Machine.update (·.remove p) : Contest _).run holding).run m =
      let x := m.tree.attempt (·.remove p)
      ((x.2, holding), { m with tree := x.1 }) := rfl
  have hhere : (Machine.update (·.remove p) : StateM Machine _).run m =
      let x := m.tree.attempt (·.remove p)
      (x.2, { m with tree := x.1 }) := rfl
  rw [Machine.remove, Machine.remove, StateT.run_bind, StateT.run_bind, StateT.run_bind, hthere, hhere]
  obtain ⟨tree, running, _ | text, held, calls, out, err, answer⟩ := m
  all_goals rcases tree.attempt (·.remove p) with ⟨tree, _ | _⟩ <;> rfl

theorem exec_ofFileResult (x : Contest (Except FileError α)) :
    exec (ofFileResult x) s =
      let y := (x.run s.holding).run s.machine
      (y.1.1.mapError .file, ⟨y.1.2, y.2⟩) := rfl

theorem exec_remove :
    exec (ofFileResult ((fileLock home now pid c).files.remove (fileLock home now pid c).path)) s =
      match (Machine.remove ⟨FileLock.place home, false⟩ : StateM Machine _).run s.machine with
      | (.ok (), m) => (.ok (), { s with machine := m })
      | (.error e, m) => (.error (.file e), { s with machine := m }) := by
  have hpath : (fileLock home now pid c).files.remove (fileLock home now pid c).path =
      (Machine.remove ⟨FileLock.place home, false⟩ : Contest _) :=
    congrArg Machine.remove (FileLock.target_pathIn home)
  rw [hpath, exec_ofFileResult, run_remove]
  rcases (Machine.remove ⟨FileLock.place home, false⟩ : StateM Machine _).run s.machine with
    ⟨_ | _, m⟩ <;> rfl

theorem exec_held : exec (liftM (fileLock home now pid c).held.get) s =
    (.ok (decide (c ∈ s.holding)), s) := rfl

/-- Whether a process with a number runs. A process has an integer of 32 bits as its number. -/
def Runs (running : List Int) (n : Int) : Prop :=
  (-0x80000000 ≤ n ∧ n < 0x80000000) ∧ n ∈ running

instance (running : List Int) (n : Int) : Decidable (Runs running n) :=
  inferInstanceAs (Decidable ((-0x80000000 ≤ n ∧ n < 0x80000000) ∧ n ∈ running))

def IsLive (running : List Int) (h : LockHolder) : Prop :=
  ∃ n ∈ h.pid.toInt?, Runs running n

instance (running : List Int) (h : LockHolder) : Decidable (IsLive running h) :=
  inferInstanceAs (Decidable (∃ n ∈ h.pid.toInt?, Runs running n))

theorem exec_isAlive (h : LockHolder) :
    exec (liftM ((fileLock home now pid c).isAlive h)) s =
      (.ok (decide (IsLive s.machine.running h)), s) := by
  rw [FileLock.isAlive]
  cases hpid : h.pid.toInt? with
  | none =>
    rw [show decide (IsLive s.machine.running h) = false by simp [IsLive, hpid]]
    rfl
  | some n =>
    rw [show decide (IsLive s.machine.running h) = decide (Runs s.machine.running n) by
      simp [IsLive, hpid]]
    dsimp only
    split
    · next hn =>
      rw [show decide (Runs s.machine.running n) = decide (n ∈ s.machine.running) by simp [Runs, hn]]
      rfl
    · next hn =>
      rw [show decide (Runs s.machine.running n) = false by simp [Runs, hn]]
      rfl

/-- Looking for a live holder changes nothing. -/
theorem liveHolder?_cases (home now : String) (pid : Number) (c : Nat) (s : Standing) :
    ∃ r, exec (fileLock home now pid c).liveHolder? s = (r, s) := by
  rw [FileLock.liveHolder?, exec_bind, exec_readHolder]
  rcases s.machine.tree.read ⟨FileLock.place home, false⟩ with (_ | _ | _ | _ | _) | text
  any_goals exact ⟨_, rfl⟩
  dsimp only
  cases LockHolder.ofText? text with
  | none => exact ⟨_, rfl⟩
  | some h =>
    dsimp only
    rw [exec_bind, exec_isAlive]
    exact ⟨_, rfl⟩

theorem exec_liveHolder? {text : String}
    (hread : s.machine.tree.read ⟨FileLock.place home, false⟩ = .ok text) :
    exec (fileLock home now pid c).liveHolder? s =
      (.ok ((LockHolder.ofText? text).filter fun h => IsLive s.machine.running h), s) := by
  rw [FileLock.liveHolder?, exec_bind, exec_readHolder, hread]
  dsimp only
  cases LockHolder.ofText? text with
  | none => rfl
  | some h =>
    dsimp only
    rw [exec_bind, exec_isAlive]
    by_cases hlive : IsLive s.machine.running h
    · simp only [hlive, decide_true, if_true, exec_pure, Option.filter_some]
    · simp only [hlive, decide_false, Bool.false_eq_true, if_false, exec_pure, Option.filter_some]

structure Took (home now : String) (pid : Number) (c : Nat) (command : Text) (s t : Standing) :
    Prop where
  holding : t.holding = joined c s.holding
  running : t.machine.running = s.machine.running
  read : t.machine.tree.read ⟨FileLock.place home, false⟩ =
    .ok (LockHolder.toJson ⟨pid, command, now⟩).compact

structure Failed (s t : Standing) : Prop where
  holding : t.holding = s.holding
  running : t.machine.running = s.machine.running

theorem tryCreate_cases (home now : String) (pid : Number) (c : Nat) (command : Text) (s : Standing) :
    (∃ t, exec ((fileLock home now pid c).tryCreate command) s = (.ok true, t) ∧
        Took home now pid c command s t) ∨
      exec ((fileLock home now pid c).tryCreate command) s = (.ok false, s) ∨
      ∃ f, exec ((fileLock home now pid c).tryCreate command) s = (.error f, s) := by
  rw [exec_tryCreate]
  cases hcreate : s.machine.tree.create ⟨FileLock.place home, false⟩
      (LockHolder.toJson ⟨pid, command, now⟩).compact with
  | error e =>
    cases e with
    | taken => exact Or.inr (Or.inl rfl)
    | missing | isDirectory | notDirectory | notRemovable => exact Or.inr (Or.inr ⟨_, rfl⟩)
  | ok u =>
    obtain ⟨hleads, -, hset⟩ := create_eq_ok_iff.mp hcreate
    refine Or.inl ⟨_, rfl, rfl, rfl, read_eq_ok_iff.mpr ⟨?_, ?_⟩⟩
    · rw [hset]
      exact (sameOutside_set _).leads hleads
    · rw [hset]
      exact find?_set_self _ _ (by simp)

theorem remove_cases (home now : String) (pid : Number) (c : Nat) (s : Standing) :
    ∃ r t, exec (ofFileResult ((fileLock home now pid c).files.remove
        (fileLock home now pid c).path)) s = (r, t) ∧ Failed s t := by
  have hrunning := Machine.running_remove ⟨FileLock.place home, false⟩ s.machine
  rw [exec_remove]
  generalize (Machine.remove ⟨FileLock.place home, false⟩ : StateM Machine _).run s.machine = x
    at hrunning ⊢
  rcases x with ⟨e | _, m⟩ <;> exact ⟨_, _, rfl, rfl, hrunning⟩

theorem readHolder_cases (home now : String) (pid : Number) (c : Nat) (s : Standing) :
    ∃ r, exec (fileLock home now pid c).readHolder s = (r, s) := by
  rw [exec_readHolder]
  rcases s.machine.tree.read ⟨FileLock.place home, false⟩ with (_ | _ | _ | _ | _) | text
  all_goals exact ⟨_, rfl⟩

def tryAgain (l : FileLock Contest) (command : Text) : ExceptT Fault Contest Unit := do
  if ← l.tryCreate command then return
  throw (.lockHeld command ((← l.readHolder).getD .unknown))

theorem tryAgain_cases (home now : String) (pid : Number) (c : Nat) (command : Text) (s : Standing) :
    (∃ t, exec (tryAgain (fileLock home now pid c) command) s = (.ok (), t) ∧
        Took home now pid c command s t) ∨
      ∃ f, exec (tryAgain (fileLock home now pid c) command) s = (.error f, s) := by
  rw [tryAgain, exec_bind]
  rcases tryCreate_cases home now pid c command s with ⟨t, hmade, htook⟩ | htaken | ⟨f, hfailed⟩
  · rw [hmade]
    exact Or.inl ⟨t, rfl, htook⟩
  · obtain ⟨r, hread⟩ := readHolder_cases home now pid c s
    rw [htaken]
    simp only [Bool.false_eq_true, if_false]
    rw [exec_bind, hread]
    rcases r with f | holder <;> exact Or.inr ⟨_, rfl⟩
  · rw [hfailed]
    exact Or.inr ⟨f, rfl⟩

/-- An attempt to take the lock succeeds or fails. -/
theorem acquire_cases (home now : String) (pid : Number) (c : Nat) (command : Text) (s : Standing) :
    (∃ t, exec ((fileLock home now pid c).acquire command) s = (.ok (), t) ∧
        Took home now pid c command s t) ∨
      ∃ f t, exec ((fileLock home now pid c).acquire command) s = (.error f, t) ∧ Failed s t := by
  rw [FileLock.acquire, exec_bind]
  rcases tryCreate_cases home now pid c command s with
    ⟨t, hmade, htook⟩ | htaken | ⟨f, hfailed⟩
  · rw [hmade]
    exact Or.inl ⟨t, rfl, htook⟩
  · rw [htaken]
    simp only [Bool.false_eq_true, if_false]
    obtain ⟨r, hlive⟩ := liveHolder?_cases home now pid c s
    rw [exec_bind, hlive]
    rcases r with f | _ | holder
    · exact Or.inr ⟨f, s, rfl, rfl, rfl⟩
    · obtain ⟨r, s', hremove, hrest⟩ := remove_cases home now pid c s
      dsimp only
      rw [exec_bind, hremove]
      rcases r with f | _
      · exact Or.inr ⟨f, s', rfl, hrest⟩
      · rcases tryAgain_cases home now pid c command s' with ⟨t, hmade, htook⟩ | ⟨f, hfailed⟩
        · refine Or.inl ⟨t, hmade, ?_, htook.running.trans hrest.running, htook.read⟩
          rw [htook.holding, hrest.holding]
        · exact Or.inr ⟨f, s', hfailed, hrest⟩
    · exact Or.inr ⟨_, s, rfl, rfl, rfl⟩
  · rw [hfailed]
    exact Or.inr ⟨f, s, rfl, rfl, rfl⟩

theorem took_of_exec {t : Standing}
    (h : exec ((fileLock home now pid c).acquire command) s = (.ok (), t)) :
    Took home now pid c command s t := by
  rcases acquire_cases home now pid c command s with ⟨t', hexec, htook⟩ | ⟨f, t', hexec, -⟩
  · rw [h] at hexec
    cases hexec
    exact htook
  · rw [h] at hexec
    cases hexec

def holder? (home : String) (tree : FileTree) : Option LockHolder :=
  (tree.read (Path.target (FileLock.pathIn home))).toOption.bind LockHolder.ofText?

theorem holder?_eq_some_iff {tree : FileTree} {h : LockHolder} :
    holder? home tree = some h ↔ ∃ text, tree.read ⟨FileLock.place home, false⟩ = .ok text ∧
      LockHolder.ofText? text = some h := by
  rw [holder?, FileLock.target_pathIn]
  cases tree.read ⟨FileLock.place home, false⟩ <;> simp [Except.toOption]

theorem exec_tryCreate_of_read {text : String}
    (hread : s.machine.tree.read ⟨FileLock.place home, false⟩ = .ok text) :
    exec ((fileLock home now pid c).tryCreate command) s = (.ok false, s) := by
  obtain ⟨hleads, hfile⟩ := read_eq_ok_iff.mp hread
  rw [exec_tryCreate, FileLock.place, Path.place, create_child hleads, if_neg]
  rw [hfile]
  exact Option.some_ne_none _

theorem exec_acquire_of_isLive {h : LockHolder} (hnamed : holder? home s.machine.tree = some h)
    (hlive : IsLive s.machine.running h) :
    exec ((fileLock home now pid c).acquire command) s = (.error (.lockHeld command h), s) := by
  obtain ⟨text, hread, htext⟩ := holder?_eq_some_iff.mp hnamed
  rw [FileLock.acquire, exec_bind, exec_tryCreate_of_read hread]
  simp only [Bool.false_eq_true, if_false]
  rw [exec_bind, exec_liveHolder? hread, htext]
  simp only [hlive, decide_true, Option.filter_some, if_true]
  rfl

theorem filter_eq_none_of_dead {text : String} {running : List Int}
    (hdead : ∀ h, LockHolder.ofText? text = some h → ¬IsLive running h) :
    (LockHolder.ofText? text).filter (fun h => IsLive running h) = none :=
  Option.filter_eq_none_iff.mpr fun h hh => by simpa using hdead h hh

/-- The lock is not taken when another process makes the file anew. -/
theorem exec_acquire_of_intruder {text text' : String}
    (hread : s.machine.tree.read ⟨FileLock.place home, false⟩ = .ok text)
    (hdead : ∀ h, LockHolder.ofText? text = some h → ¬IsLive s.machine.running h)
    (hintruder : s.machine.intruder = some text') :
    ∃ t, exec ((fileLock home now pid c).acquire command) s =
        (.error (.lockHeld command ((LockHolder.ofText? text').getD .unknown)), t) ∧
      t.holding = s.holding ∧ t.machine.tree.read ⟨FileLock.place home, false⟩ = .ok text' := by
  obtain ⟨hleads, hfile⟩ := read_eq_ok_iff.mp hread
  obtain ⟨m, hrun, haside, -, -, hnode⟩ := Machine.run_remove hleads hfile
  rw [hintruder] at hnode
  have hread' : m.tree.read ⟨FileLock.place home, false⟩ = .ok text' :=
    read_eq_ok_iff.mpr ⟨haside.tree.leads hleads, hnode⟩
  refine ⟨{ s with machine := m }, ?_, rfl, hread'⟩
  rw [FileLock.acquire, exec_bind, exec_tryCreate_of_read hread]
  simp only [Bool.false_eq_true, if_false]
  rw [exec_bind, exec_liveHolder? hread, filter_eq_none_of_dead hdead]
  dsimp only
  rw [exec_bind, exec_remove, FileLock.place, Path.place, hrun]
  dsimp only
  rw [exec_bind, exec_tryCreate_of_read (s := { s with machine := m }) hread']
  simp only [Bool.false_eq_true, if_false]
  rw [exec_bind, exec_readHolder, hread']
  rfl

theorem exec_tryCreate_of_free (hleads : s.machine.tree.Leads (Path.fromRoot home))
    (hfree : s.machine.tree.find? (FileLock.place home) = none) :
    ∃ t, exec ((fileLock home now pid c).tryCreate command) s = (.ok true, t) := by
  rw [FileLock.place, Path.place] at hfree
  rw [exec_tryCreate, FileLock.place, Path.place, create_child hleads, if_pos hfree]
  exact ⟨_, rfl⟩

/-- The lock is taken where there is no file, or that of a dead holder, and nobody makes it anew. -/
theorem exec_acquire_of_free (hleads : s.machine.tree.Leads (Path.fromRoot home))
    (hfree : ∀ node, s.machine.tree.find? (FileLock.place home) = some node → ∃ text,
      node = .file text ∧ ∀ h, LockHolder.ofText? text = some h → ¬IsLive s.machine.running h)
    (hquiet : s.machine.intruder = none) :
    ∃ t, exec ((fileLock home now pid c).acquire command) s = (.ok (), t) := by
  rw [FileLock.acquire, exec_bind]
  cases hnode : s.machine.tree.find? (FileLock.place home) with
  | none =>
    obtain ⟨t, hmade⟩ := exec_tryCreate_of_free (s := s) hleads hnode
    rw [hmade]
    exact ⟨t, rfl⟩
  | some node =>
    obtain ⟨text, rfl, hdead⟩ := hfree node hnode
    obtain ⟨m, hrun, haside, -, -, hgone⟩ := Machine.run_remove hleads hnode
    rw [hquiet] at hgone
    have hread := read_eq_ok_iff.mpr ⟨hleads, hnode⟩
    obtain ⟨t, hmade⟩ := exec_tryCreate_of_free (s := { s with machine := m })
      (haside.tree.leads hleads) hgone
    rw [exec_tryCreate_of_read hread]
    simp only [Bool.false_eq_true, if_false]
    rw [exec_bind, exec_liveHolder? hread, filter_eq_none_of_dead hdead]
    dsimp only
    rw [exec_bind, exec_remove, FileLock.place, Path.place, hrun]
    dsimp only
    rw [exec_bind, hmade]
    exact ⟨t, rfl⟩

theorem exec_release_of_not_mem (h : c ∉ s.holding) :
    exec (fileLock home now pid c).release s = (.ok (), s) := by
  rw [FileLock.release, exec_bind, exec_held]
  simp only [h, decide_false, Bool.false_eq_true, if_false]
  rfl

theorem exec_release_of_mem {text : String} (h : c ∈ s.holding)
    (hread : s.machine.tree.read ⟨FileLock.place home, false⟩ = .ok text) :
    ∃ t, exec (fileLock home now pid c).release s = (.ok (), t) ∧
      t.holding = s.holding.filter (· ≠ c) ∧ t.machine.running = s.machine.running := by
  obtain ⟨hleads, hfile⟩ := read_eq_ok_iff.mp hread
  obtain ⟨m, hrun, -, hrunning, -⟩ := Machine.run_remove hleads hfile
  refine ⟨⟨s.holding.filter (· ≠ c), m⟩, ?_, rfl, hrunning⟩
  rw [FileLock.release, exec_bind, exec_held]
  simp only [h, decide_true, if_true]
  rw [exec_bind, exec_remove, FileLock.place, Path.place, hrun]
  rfl

end Contest

end Subscription
