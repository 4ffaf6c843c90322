import Subscription.Proofs.Manager.Simulation
import Subscription.Proofs.Storage.Attachment
import Subscription.Proofs.Storage.Lock

/-!
Managers on the files of a machine serve their worlds, as long as the attachment and the log can be read
and written. The lock file, the attachment and the log stand in three places below the home directory, and
what is done in one of them does not show in the others.
-/

namespace Subscription.Machine

open FileTree

def setup (newName : String) (w : Embedded.World) : Setup :=
  ⟨w.pid, w.now, newName, [], none, false⟩

/-- The manager that the program has on a machine, but for what it manages and whom it asks. -/
def manager (newName home : String) (w : Embedded.World) : Manager (StateM Machine) :=
  let config := { Config.default home with allowBeta := w.allowBeta, logOperations := w.logged }
  { (host (setup newName w)).managerFor home config false w.series with
    catalog := w.catalog
    handler := w.handler
    contracts := fun token => ExceptT.mk (pure (w.contracts token))
    instanceToken := ExceptT.mk (pure w.instanceToken) }

variable {newName home : String} {w : Embedded.World} {m : Machine}

theorem storage_manager : (manager newName home w).storage = Storage.inFiles files home := rfl

theorem nextEvent_manager :
    (manager newName home w).nextEvent = if w.logged then some (pure newName) else none := rfl

theorem exec_log (op : Operation) (r : Report) (m : Machine) :
    exec ((manager newName home w).log op r) m =
      if w.logged then
        exec ((Storage.inFiles files home).log ⟨newName, w.now, op.action, op.requested, r⟩) m
      else (.ok (), m) := by
  have hnow : (manager newName home w).now = pure w.now := rfl
  rw [Manager.log, nextEvent_manager]
  cases w.logged with
  | true =>
    simp only [if_true, hnow, exec_bind, exec_lift, storage_manager]
    rfl
  | false => rfl

/-! ### The places of the storage -/

theorem target_below {directory name : String} (h : Path.IsName directory) (hname : Path.IsName name)
    (home : String) :
    Path.target (Path.join [Path.join [home, directory], name]) =
      ⟨Path.place home directory ++ [name], false⟩ := by
  rw [Path.target_join hname, Path.place, Path.fromRoot_join h]

theorem isName_state : Path.IsName "state" := by decide

theorem isName_logs : Path.IsName "logs" := by decide

theorem isName_attachmentName : Path.IsName Storage.attachmentName := by decide

theorem isName_operationLog : Path.IsName Storage.operationLog := by decide

/-! ### Reading and writing -/

theorem write_files (path text : String) :
    (files.write path text : StateM Machine _) =
      update (·.modify (Path.target path) fun _ => text) := rfl

theorem append_files (path text : String) :
    (files.append path text : StateM Machine _) =
      update (·.modify (Path.target path) (· ++ text)) := rfl

theorem makeDirs_files (path : String) :
    (files.makeDirs path : StateM Machine _) = update (·.makeDirs (Path.target path)) := rfl

theorem exec_update (change : FileTree → Except FileError FileTree) (m : Machine) :
    exec (ofFileResult (update change)) m =
      match change m.tree with
      | .ok u => (.ok (), { m with tree := u })
      | .error e => (.error (.file e), m) := by
  show (let x := (update change : StateM Machine _).run m; (x.1.mapError Fault.file, x.2)) = _
  rw [run_update]
  rcases change m.tree with e | u <;> rfl

/-- A directory is made before the file in it is changed; it stays where the change fails. -/
theorem exec_amend (directory path : String) (change : String → String) (m : Machine) :
    exec (do
        ofFileResult (files.makeDirs directory)
        ofFileResult (update (·.modify (Path.target path) change))) m =
      match m.tree.makeDirs (Path.target directory) with
      | .error e => (.error (.file e), m)
      | .ok u =>
        match u.modify (Path.target path) change with
        | .ok u' => (.ok (), { m with tree := u' })
        | .error e => (.error (.file e), { m with tree := u }) := by
  rw [makeDirs_files, exec_bind, exec_update]
  rcases m.tree.makeDirs (Path.target directory) with e | u
  · rfl
  · exact exec_update _ _

/-- Changing a file below the home directory, where its directory may have to be made first. -/
theorem exec_change {directory name : String} (h : Path.IsName directory) (hname : Path.IsName name)
    (hleads : m.tree.Leads (Path.fromRoot home)) (ready : m.tree.Ready (Path.place home directory) name)
    (change : String → String) :
    ∃ u old, exec (do
        ofFileResult (files.makeDirs (Path.join [home, directory]))
        ofFileResult (update
          (·.modify (Path.target (Path.join [Path.join [home, directory], name])) change))) m =
        (.ok (), { m with tree := u }) ∧
      SameOutside (Path.place home directory) m.tree u ∧ u.Leads (Path.place home directory) ∧
      u.find? (Path.place home directory ++ [name]) = some (.file (change old)) := by
  obtain ⟨u, v, old, hmake, hmodify, hrest⟩ := ready.modify hleads change
  refine ⟨v, old, ?_, hrest⟩
  rw [exec_amend, Path.target_join h, target_below h hname, Path.place]
  simp only [hmake, hmodify]

/-- The attachment and the log can be read and written. -/
structure Usable (home : String) (t : FileTree) : Prop where
  state : t.Ready (Path.place home "state") Storage.attachmentName
  logs : t.Ready (Path.place home "logs") Storage.operationLog

def stored (home : String) (m : Machine) : Option String :=
  (m.tree.read ⟨Path.place home "state" ++ [Storage.attachmentName], false⟩).toOption

theorem exec_read (home name : String) (m : Machine) :
    exec ((Storage.inFiles files home).read name) m =
      match m.tree.read (Path.target (Storage.valuePath home name)) with
      | .ok text => (.ok (Json.parse text), m)
      | .error .missing => (.ok none, m)
      | .error e => (.error (.file e), m) := by
  generalize hpath : Storage.valuePath home name = path
  have hread : (files.read path : StateM Machine _).run m = (m.tree.read (Path.target path), m) := rfl
  simp only [Storage.inFiles, exec, ExceptT.run_mk, StateT.run_bind, hpath, hread]
  rcases m.tree.read (Path.target path) with (_ | _ | _ | _ | _) | text <;> rfl

theorem exec_attachment (h : Usable home m.tree) :
    exec (manager newName home w).attachment m =
      (.ok (.ofStored ((stored home m).bind Json.parse)), m) := by
  rw [Manager.attachment, Storage.readAttachment, exec_bind, storage_manager, exec_read,
    Storage.valuePath, target_below isName_state isName_attachmentName, stored]
  rcases h.state.read with ⟨text, htext⟩ | hmissing
  · rw [htext]
    rfl
  · rw [hmissing]
    rfl

theorem stored_of_sameOutside {directory : String} {m' : Machine} (hne : directory ≠ "state")
    (h : SameOutside (Path.place home directory) m.tree m'.tree) : stored home m' = stored home m := by
  have hplace : Path.place home "state" ++ [Storage.attachmentName] =
      Path.fromRoot home ++ "state" :: [Storage.attachmentName] := List.append_assoc _ _ _
  rw [stored, stored, hplace, h.read hne]

theorem Usable.of_aside {m' : Machine} (hm : Usable home m.tree)
    (h : Aside (FileLock.place home) m m') : Usable home m'.tree :=
  ⟨hm.state.of_sameOutside h.tree (by decide), hm.logs.of_sameOutside h.tree (by decide)⟩

theorem has_of_sameOutside {directory : String} {u : FileTree} (hne : directory ≠ "lock")
    (h : SameOutside (Path.place home directory) m.tree u) (hm : FileLock.Has home m) :
    FileLock.Has home { m with tree := u } := by
  obtain ⟨text, htext⟩ := hm.file
  exact ⟨h.leads hm.leads, ⟨text, (h.find? hne []).trans htext⟩, hm.held⟩

/-! ### Managers -/

/-- What counts in a machine. With nobody else about, the lock file is missing between operations. -/
def view (home : String) (alone : Prop) : Manager.View Machine where
  idle m := Usable home m.tree ∧ (alone → m.tree.Leads (Path.fromRoot home) ∧
    m.tree.find? (FileLock.place home) = none ∧ m.intruder = none)
  busy m := Usable home m.tree ∧ FileLock.Has home m ∧ (alone → m.intruder = none)
  stored := stored home
  calls m := m.calls

/-- Taking the lock leads on to an operation, or ends where it began. -/
theorem acquire_view {alone : Prop} (hm : (view home alone).idle m) (command : Text) :
    ∃ m', (view home alone).Agree m m' ∧
      ((exec ((manager newName home w).lock.acquire command) m = (.ok (), m') ∧
          (view home alone).busy m') ∨
        ¬alone ∧ ∃ f, exec ((manager newName home w).lock.acquire command) m = (.error f, m') ∧
          (view home alone).idle m') := by
  obtain ⟨usable, quiet⟩ := hm
  have hattempt := FileLock.attempted_acquire (setup newName w) home m command
  have hopen : alone →
      (exec ((FileLock.onMachine (setup newName w) home).acquire command) m).1 = .ok () :=
    fun h => FileLock.acquire_of_free (setup newName w) (quiet h).1 (quiet h).2.1 command
  have hlock : (manager newName home w).lock.acquire command =
      (FileLock.onMachine (setup newName w) home).acquire command := rfl
  rw [hlock]
  generalize exec ((FileLock.onMachine (setup newName w) home).acquire command) m = outcome
    at hattempt hopen ⊢
  obtain ⟨result, m'⟩ := outcome
  obtain ⟨haside, houtcome⟩ := hattempt
  refine ⟨m', ⟨stored_of_sameOutside (by decide) haside.tree, haside.calls⟩, houtcome.imp ?_ ?_⟩
  · rintro ⟨rfl, hhas, hkept⟩
    exact ⟨rfl, usable.of_aside haside, hhas, fun h => hkept (quiet h).2.2⟩
  · rintro ⟨f, rfl⟩
    have hcrowd : ¬alone := fun h => by cases hopen h
    exact ⟨hcrowd, f, rfl, usable.of_aside haside, fun h => absurd h hcrowd⟩

theorem release_view {alone : Prop} (hm : (view home alone).busy m) :
    ∃ m', exec (manager newName home w).lock.release m = (.ok (), m') ∧
      (view home alone).idle m' ∧ (view home alone).Agree m m' := by
  obtain ⟨usable, hhas, quiet⟩ := hm
  obtain ⟨m', hrelease, haside, hfree⟩ := FileLock.exec_release (setup newName w) hhas
  refine ⟨m', hrelease, ⟨usable.of_aside haside, fun h => ?_⟩,
    stored_of_sameOutside (by decide) haside.tree, haside.calls⟩
  exact ⟨haside.tree.leads hhas.leads, (hfree (quiet h)).2, (hfree (quiet h)).1⟩

theorem writes_view {alone : Prop} (hm : (view home alone).busy m) (a : Attachment) :
    ∃ m', exec ((manager newName home w).storage.writeAttachment a) m = (.ok (), m') ∧
      (view home alone).busy m' ∧ (view home alone).attachment m' = a ∧ m'.calls = m.calls := by
  obtain ⟨usable, hhas, quiet⟩ := hm
  obtain ⟨u, old, hexec, hsame, hleads, hfile⟩ := exec_change isName_state isName_attachmentName
    hhas.leads usable.state fun _ => (a.toJsonBy ContractRecord.Field.all).indented
  have hready : u.Ready (Path.place home "state") Storage.attachmentName :=
    ⟨hleads.passable, by simp [hfile]⟩
  have hstored : stored home { m with tree := u } =
      some (a.toJsonBy ContractRecord.Field.all).indented := by
    rw [stored, read_eq_ok_iff.mpr ⟨hleads, hfile⟩]
    rfl
  refine ⟨{ m with tree := u }, ?_, ⟨⟨hready, usable.logs.of_sameOutside hsame (by decide)⟩,
    has_of_sameOutside (by decide) hsame hhas, quiet⟩, ?_, rfl⟩
  · rw [storage_manager, Storage.writeAttachment, Storage.writeAttachmentBy]
    simp only [Storage.inFiles, Storage.valuePath, write_files]
    exact hexec
  · show Attachment.ofStored ((stored home { m with tree := u }).bind Json.parse) = a
    rw [hstored]
    exact a.ofStored_parse_indented (by decide) fun f => by cases f <;> decide

theorem logs_view {alone : Prop} (hm : (view home alone).busy m) (op : Operation) (r : Report) :
    ∃ m', exec ((manager newName home w).log op r) m = (.ok (), m') ∧
      (view home alone).busy m' ∧ (view home alone).Agree m m' := by
  have ⟨usable, hhas, quiet⟩ := hm
  let record : OperationRecord := ⟨newName, w.now, op.action, op.requested, r⟩
  obtain ⟨u, old, hexec, hsame, hleads, hfile⟩ := exec_change isName_logs isName_operationLog
    hhas.leads usable.logs (· ++ (record.line ++ "\n"))
  have hready : u.Ready (Path.place home "logs") Storage.operationLog :=
    ⟨hleads.passable, by simp [hfile]⟩
  have hbusy : (view home alone).busy { m with tree := u } :=
    ⟨⟨usable.state.of_sameOutside hsame (by decide), hready⟩,
      has_of_sameOutside (by decide) hsame hhas, quiet⟩
  rw [exec_log]
  split_ifs
  · refine ⟨{ m with tree := u }, ?_, hbusy, stored_of_sameOutside (by decide) hsame, rfl⟩
    rw [Storage.log]
    simp only [Storage.inFiles, Storage.logPath, append_files]
    exact hexec
  · exact ⟨m, rfl, hm, rfl, rfl⟩

/-- A manager on the files of a machine serves its world. -/
theorem serves_manager (w : Embedded.World) (alone : Prop) :
    (manager newName home w).Serves w (view home alone) alone where
  catalog := rfl
  series := rfl
  allowBeta := rfl
  handler := rfl
  now := rfl
  acquire hm command := acquire_view hm command
  release hm := release_view hm
  reads hm := exec_attachment (hm.elim And.left And.left)
  writes hm a := writes_view hm a
  contracts hm _ := ⟨_, rfl, hm, rfl, rfl⟩
  instanceToken hm := ⟨_, rfl, hm, rfl, rfl⟩
  calls _ := rfl
  recorded hm _ := ⟨⟨hm.1, ⟨hm.2.1.leads, hm.2.1.file, hm.2.1.held⟩, hm.2.2⟩, rfl, rfl⟩
  logs hm op r := logs_view hm op r

def broken : Machine :=
  .ofTree ⟨[(["pro"], .directory), (["pro", "state"], .directory),
    (["pro", "state", "attachment.json"], .file "\x7b"), (["pro", "logs"], .directory)]⟩

theorem usable_broken : Usable "/pro" broken.tree := by
  have hleads : ∀ p, broken.tree.walk [] p = .ok .directory → broken.tree.Leads p :=
    fun p => FileTree.walk_eq_directory_iff.mp
  refine ⟨⟨(hleads _ ?_).passable, ?_⟩, ⟨(hleads _ ?_).passable, ?_⟩⟩
  all_goals decide

theorem stored_broken : (broken.stored "/pro").bind Json.parse = none := by decide +kernel

theorem alone_broken : broken.tree.Leads (Path.fromRoot "/pro") ∧
    broken.tree.find? (FileLock.place "/pro") = none ∧ broken.intruder = none :=
  ⟨walk_eq_directory_iff.mp (by decide), by decide, rfl⟩

end Subscription.Machine
