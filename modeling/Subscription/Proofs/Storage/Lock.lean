import Subscription.Host.Machine
import Subscription.Manager.Host
import Subscription.Proofs.Files.Path
import Subscription.Proofs.Files.Tree
import Subscription.Proofs.Reasoning

/-!
The lock file of a machine. Whatever comes of taking the lock or of giving it back, also when another
process steps in, nothing changes but the lock file; and the lock is taken when the home directory is
there and the file is not.
-/

namespace Subscription

open FileTree

namespace Machine

variable {α : Type} {m : Machine} {p : List String} {n : String}

theorem run_update (change : FileTree → Except FileError FileTree) (m : Machine) :
    (update change : StateM Machine _).run m =
      match change m.tree with
      | .ok u => (.ok (), { m with tree := u })
      | .error e => (.error e, m) := by
  show (let x := m.tree.attempt change; (x.2, { m with tree := x.1 })) = _
  rw [attempt]
  rcases change m.tree with e | u <;> rfl

theorem running_remove (p : Path.Target) (m : Machine) :
    ((remove p : StateM Machine _).run m).2.running = m.running := by
  rw [remove, StateT.run_bind, run_update]
  rcases m with ⟨tree, running, _ | text, held, calls, out, err, answer⟩
  all_goals rcases tree.remove p with e | u <;> rfl

/-- Two machines that differ at the end of some steps, in the lock, and in what another process is up to
at most. -/
structure Aside (p : List String) (m m' : Machine) : Prop where
  tree : SameOutside p m.tree m'.tree
  calls : m'.calls = m.calls

theorem Aside.refl (p : List String) (m : Machine) : Aside p m m :=
  ⟨.refl p m.tree, rfl⟩

theorem Aside.trans {m' m'' : Machine} (h : Aside p m m') (h' : Aside p m' m'') : Aside p m m'' :=
  ⟨h.tree.trans h'.tree, h'.calls.trans h.calls⟩

/-- When a file has been removed, another process may take its place, and that is all. -/
theorem run_remove {text : String} (hp : m.tree.Leads p)
    (h : m.tree.find? (p ++ [n]) = some (.file text)) :
    ∃ m', (remove ⟨p ++ [n], false⟩ : StateM Machine _).run m = (.ok (), m') ∧
      Aside (p ++ [n]) m m' ∧ m'.running = m.running ∧ m'.intruder = none ∧
      m'.tree.find? (p ++ [n]) = m.intruder.map .file := by
  have hne : p ++ [n] ≠ [] := List.append_ne_nil_of_right_ne_nil p (List.cons_ne_nil n [])
  have hgone := find?_erase_self m.tree hne
  have herase : SameOutside (p ++ [n]) m.tree (m.tree.erase (p ++ [n])) := sameOutside_erase
  rw [remove, StateT.run_bind, run_update, remove_child hp h]
  -- Another process may be waiting to make the file again as soon as it is gone.
  obtain ⟨tree, running, _ | text', held, calls, out, err, answer⟩ := m
  · exact ⟨_, rfl, ⟨herase, rfl⟩, rfl, rfl, hgone⟩
  · have hput := put_child (herase.leads hp) hgone text'
    refine ⟨⟨(tree.erase (p ++ [n])).set (p ++ [n]) (.file text'), running, none, held, calls, out, err,
      answer⟩, ?_, ⟨herase.trans (sameOutside_set _), rfl⟩, rfl, rfl, find?_set_self _ _ hne⟩
    show (let x := (tree.erase (p ++ [n])).put ⟨p ++ [n], false⟩ (.file text')
      (Except.ok (), Machine.mk x.1 running none held calls out err answer)) = _
    rw [hput]

end Machine

namespace FileLock

variable {home : String} (setup : Machine.Setup) {m : Machine}

abbrev place (home : String) : List String :=
  Path.place home "lock"

theorem target_pathIn (home : String) : Path.target (pathIn home) = ⟨place home, false⟩ :=
  Path.target_join (by decide) home

def onMachine (home : String) : FileLock (StateM Machine) :=
  (Machine.host setup).fileLock home

theorem exec_tryCreate (command : Text) (m : Machine) :
    exec ((onMachine setup home).tryCreate command) m =
      match m.tree.create (Path.target (pathIn home))
        (LockHolder.toJson ⟨setup.pid, command, setup.now⟩).compact with
      | .ok u => (.ok true, { m with tree := u, held := true })
      | .error .taken => (.ok false, m)
      | .error e => (.error (.file e), m) := by
  simp only [tryCreate, onMachine, Host.fileLock, Machine.host, Machine.files, exec_bind, exec_lift,
    StateT.run_pure]
  dsimp only [pure, Id]
  generalize (LockHolder.toJson ⟨setup.pid, command, setup.now⟩).compact = text
  simp only [Machine.run_update]
  rcases m.tree.create (Path.target (pathIn home)) text with e | u
  · cases e <;> rfl
  · rfl

structure Has (home : String) (m : Machine) : Prop where
  leads : m.tree.Leads (Path.fromRoot home)
  file : ∃ text, m.tree.find? (place home) = some (.file text)
  held : m.held = true

/-- The ways in which an attempt to make the lock file comes out. -/
theorem tryCreate_cases (home : String) (m : Machine) (command : Text) :
    (∃ m', exec ((onMachine setup home).tryCreate command) m = (.ok true, m') ∧
        Machine.Aside (place home) m m' ∧ Has home m' ∧ m'.intruder = m.intruder) ∨
      (exec ((onMachine setup home).tryCreate command) m = (.ok false, m) ∧
        m.tree.Leads (Path.fromRoot home) ∧ m.tree.find? (place home) ≠ none) ∨
      (¬m.tree.Leads (Path.fromRoot home) ∧
        ∃ f, exec ((onMachine setup home).tryCreate command) m = (.error f, m)) := by
  rw [exec_tryCreate, target_pathIn, place, Path.place]
  by_cases hleads : m.tree.Leads (Path.fromRoot home)
  · rw [create_child hleads]
    split_ifs with hfree
    · refine Or.inl ⟨_, rfl, ⟨sameOutside_set _, rfl⟩, ⟨?_, ⟨_, find?_set_self _ _ (by simp)⟩, rfl⟩, rfl⟩
      exact (sameOutside_set _).leads hleads
    · exact Or.inr (Or.inl ⟨rfl, hleads, hfree⟩)
  · refine Or.inr (Or.inr ⟨hleads, ?_⟩)
    obtain ⟨e, hne, hcreate⟩ := create_of_not_leads hleads
      (LockHolder.toJson ⟨setup.pid, command, setup.now⟩).compact
    rw [hcreate]
    cases e with
    | taken => exact absurd rfl hne
    | missing | isDirectory | notDirectory | notRemovable => exact ⟨_, rfl⟩

theorem keeps_readHolder : Keeps id (onMachine setup home).readHolder := by
  refine keeps_bind (keeps_lift fun _ => rfl) fun text => ?_
  rcases text with (_ | _ | _ | _ | _) | text
  all_goals exact fun _ => rfl

theorem keeps_liveHolder? : Keeps id (onMachine setup home).liveHolder? := by
  refine keeps_bind (keeps_readHolder setup) fun holder => ?_
  cases holder with
  | none => exact keeps_pure none
  | some holder =>
    refine keeps_bind (keeps_lift fun m => ?_) fun alive => keeps_pure _
    unfold isAlive
    split
    · split <;> rfl
    · rfl

theorem exec_remove (m : Machine) :
    exec (ofFileResult ((onMachine setup home).files.remove (onMachine setup home).path)) m =
      match (Machine.remove ⟨place home, false⟩ : StateM Machine _).run m with
      | (.ok (), m') => (.ok (), m')
      | (.error e, m') => (.error (.file e), m') := by
  have hpath : (onMachine setup home).files.remove (onMachine setup home).path =
      (Machine.remove ⟨place home, false⟩ : StateM Machine _) :=
    congrArg Machine.remove (target_pathIn home)
  rw [hpath]
  show (let x := (Machine.remove ⟨place home, false⟩ : StateM Machine _).run m
    (x.1.mapError Fault.file, x.2)) = _
  rcases (Machine.remove ⟨place home, false⟩ : StateM Machine _).run m with ⟨_ | _, m'⟩ <;> rfl

/-- Giving the lock back. -/
theorem exec_release (h : Has home m) :
    ∃ m', exec (onMachine setup home).release m = (.ok (), m') ∧
      Machine.Aside (place home) m m' ∧
      (m.intruder = none → m'.intruder = none ∧ m'.tree.find? (place home) = none) := by
  obtain ⟨text, htext⟩ := h.file
  obtain ⟨m', hrun, haside, -, hnone, hnode⟩ := Machine.run_remove h.leads htext
  have hremove : exec (ofFileResult ((onMachine setup home).files.remove
      (onMachine setup home).path)) m = (.ok (), m') := by
    rw [exec_remove, place, Path.place, hrun]
  have hheld : exec (liftM (onMachine setup home).held.get : ExceptT Fault (StateM Machine) Bool) m =
      (.ok true, m) := by
    rw [← h.held]
    rfl
  refine ⟨{ m' with held := false }, ?_, ⟨haside.tree, haside.calls⟩, fun hquiet => ⟨hnone, ?_⟩⟩
  · rw [release, exec_bind, hheld]
    simp only [if_true, exec_bind, hremove]
    rfl
  · rw [hquiet] at hnode
    exact hnode

def Attempted (home : String) (m : Machine) (r : Except Fault Unit × Machine) : Prop :=
  Machine.Aside (place home) m r.2 ∧
    ((r.1 = .ok () ∧ Has home r.2 ∧ (m.intruder = none → r.2.intruder = none)) ∨ ∃ f, r.1 = .error f)

theorem attempted_error (m : Machine) (f : Fault) : Attempted home m (.error f, m) :=
  ⟨.refl _ m, Or.inr ⟨f, rfl⟩⟩

/-- Taking the lock over from a process that has left it behind. -/
theorem attempted_takeOver (hleads : m.tree.Leads (Path.fromRoot home))
    (hthere : m.tree.find? (place home) ≠ none) (command : Text) :
    Attempted home m (exec (do
      ofFileResult ((onMachine setup home).files.remove (onMachine setup home).path)
      if ← (onMachine setup home).tryCreate command then return
      throw (.lockHeld command ((← (onMachine setup home).readHolder).getD .unknown))) m) := by
  rw [exec_bind, exec_remove]
  rcases hnode : m.tree.find? (place home) with _ | text | _
  · exact absurd hnode hthere
  · obtain ⟨m', hrun, haside, -, hnone, -⟩ := Machine.run_remove hleads hnode
    rw [place, Path.place, hrun]
    simp only [exec_bind]
    rcases tryCreate_cases setup home m' command with
      ⟨m'', hmade, haside', hhas, hkept⟩ | ⟨htaken, -, -⟩ | ⟨-, f, hfailed⟩
    · rw [hmade]
      exact ⟨haside.trans haside', Or.inl ⟨rfl, hhas, fun _ => hkept.trans hnone⟩⟩
    · have hread : (exec (onMachine setup home).readHolder m').2 = m' := keeps_readHolder setup m'
      rw [htaken]
      simp only [Bool.false_eq_true, if_false, exec_bind]
      rcases hholder : exec (onMachine setup home).readHolder m' with ⟨f | holder, m₁⟩
      all_goals
        obtain rfl : m₁ = m' := by rw [← hread, hholder]
        exact ⟨haside, Or.inr ⟨_, rfl⟩⟩
    · rw [hfailed]
      exact ⟨haside, Or.inr ⟨_, rfl⟩⟩
  · -- A directory in the place of the lock file stays.
    have hrun : (Machine.remove ⟨place home, false⟩ : StateM Machine _).run m =
        (.error .notRemovable, m) := by
      rw [Machine.remove, StateT.run_bind, Machine.run_update, place, Path.place,
        remove_directory hleads hnode]
      rfl
    rw [hrun]
    exact attempted_error m _

/-- Taking the lock, whatever there is on the machine. -/
theorem attempted_acquire (home : String) (m : Machine) (command : Text) :
    Attempted home m (exec ((onMachine setup home).acquire command) m) := by
  rw [acquire, exec_bind]
  rcases tryCreate_cases setup home m command with
    ⟨m', hmade, haside, hhas, hintruder⟩ | ⟨htaken, hleads, hthere⟩ | ⟨-, f, hfailed⟩
  · rw [hmade]
    exact ⟨haside, Or.inl ⟨rfl, hhas, fun e => hintruder.trans e⟩⟩
  · rw [htaken]
    simp only [Bool.false_eq_true, if_false]
    have hlive : (exec (onMachine setup home).liveHolder? m).2 = m := keeps_liveHolder? setup m
    rw [exec_bind]
    rcases hholder : exec (onMachine setup home).liveHolder? m with ⟨f | _ | holder, m₁⟩
    all_goals obtain rfl : m₁ = m := by rw [← hlive, hholder]
    · exact attempted_error _ f
    · exact attempted_takeOver setup hleads hthere command
    · exact attempted_error _ _
  · rw [hfailed]
    exact attempted_error m _

theorem acquire_of_free (hleads : m.tree.Leads (Path.fromRoot home))
    (hfree : m.tree.find? (place home) = none) (command : Text) :
    (exec ((onMachine setup home).acquire command) m).1 = .ok () := by
  rw [acquire, exec_bind]
  rcases tryCreate_cases setup home m command with
    ⟨m', hmade, -⟩ | ⟨-, -, hthere⟩ | ⟨hmissing, -⟩
  · rw [hmade]
    rfl
  · exact absurd hfree hthere
  · exact absurd hleads hmissing

end FileLock

end Subscription
