import Subscription.Proofs.Manager.Bracket

/-!
Operations that are started while another one is under way. The first one has the lock from its start to
its end, so it goes on as if it were alone; each of the others is refused as soon as it starts, and there
is nothing that it leaves behind.
-/

namespace Subscription

variable {σ τ α β : Type}

theorem run_mapM_cons (f : α → StateM τ β) (a : α) (as : List α) (t : τ) :
    ((a :: as).mapM f).run t =
      let x := (f a).run t
      let y := (as.mapM f).run x.2
      (x.1 :: y.1, y.2) := by
  rw [List.mapM_cons, StateT.run_bind]
  rfl

/-- A computation for each element of a list, when it is known what each of them returns and in which state
those leave the list that have had their turn. -/
theorem run_mapM {f : α → StateM τ β} {g : α → β} (state : List α → τ)
    (h : ∀ past a, (f a).run (state past) = (g a, state (past ++ [a]))) (as past : List α) :
    (as.mapM f).run (state past) = (as.map g, state (past ++ as)) := by
  induction as generalizing past with
  | nil =>
    rw [List.append_nil]
    rfl
  | cons a as ih => simp only [run_mapM_cons, h, ih, List.map_cons, List.append_assoc,
      List.singleton_append]

namespace Manager

variable {mgr : Manager (StateM σ)} {op : Operation} {others : List Operation} {s t u : σ}

def goOn {m : Type → Type} [Monad m] (mgr : Manager m) (x : Operation × Except Fault Unit) :
    m (Except Fault Performed) :=
  match x.2 with
  | .ok () => (mgr.finish x.1).run
  | .error e => pure (.error e)

theorem overlap_eq (mgr : Manager (StateM σ)) (ops : List Operation) :
    mgr.overlap ops = (do
      let started ← ops.mapM fun op => (mgr.start op).run
      (ops.zip started).mapM mgr.goOn) := rfl

/-- When the first operation is granted the lock and the others are refused it, the first one goes on from
where these have left the state. -/
theorem run_overlap {f : Operation → Fault} (hstart : exec (mgr.start op) s = (.ok (), t))
    (hothers : (others.mapM fun o => (mgr.start o).run).run t = (others.map fun o => .error (f o), u)) :
    (mgr.overlap (op :: others)).run s =
      ((exec (mgr.finish op) u).1 :: others.map fun o => .error (f o),
        (exec (mgr.finish op) u).2) := by
  have hstarted : ((op :: others).mapM fun o => (mgr.start o).run).run s =
      (.ok () :: others.map fun o => .error (f o), u) := by
    rw [run_mapM_cons, show (mgr.start op).run.run s = _ from hstart]
    dsimp only
    rw [hothers]
  have hzip : others.zip (others.map fun o => (.error (f o) : Except Fault Unit)) =
      others.map fun o => (o, .error (f o)) := by
    rw [← List.zip_map', List.map_id']
  have hrest (v : σ) : ((others.map fun o => (o, (.error (f o) : Except Fault Unit))).mapM
      mgr.goOn).run v = (others.map fun o => .error (f o), v) := by
    rw [List.mapM_map]
    exact run_mapM (fun _ => v) (fun _ _ => rfl) others []
  rw [overlap_eq, StateT.run_bind, hstarted]
  show (((op :: others).zip (.ok () :: others.map fun o => .error (f o))).mapM mgr.goOn).run u = _
  rw [List.zip_cons_cons, hzip, run_mapM_cons]
  dsimp only
  rw [hrest]
  rfl

/-- What becomes of operations of which each is started before the first one has come to its end. The first
one comes to what it comes to when it is alone, and so does the state; the others are refused. In the notes
they show up with their attempts to take the lock, and nothing else. It makes no difference when they
are started in the course of the first one: they are refused at every moment, and change nothing. The lock
is free at the end, and granted to whatever operation is next. -/
structure Overlapped (mgr : Manager (StateM σ)) (free : σ → Prop) (op : Operation)
    (others : List Operation) (s : σ) : Prop where
  alone : ∃ h, (mgr.overlap (op :: others)).run s =
    ((exec (mgr.perform op) s).1 :: others.map fun o => .error (.lockHeld o.command h),
      (exec (mgr.perform op) s).2)
  noted : ∃ t notes, Adds (mgr.watched.perform op) (mgr.perform op) s
      (⟨.acquire op.command, s⟩ :: notes) ∧
    ((mgr.watched.overlap (op :: others)).run ⟨s, []⟩).2 = ⟨(exec (mgr.perform op) s).2,
      ⟨.acquire op.command, s⟩ :: (others.map (fun o => ⟨.acquire o.command, t⟩) ++ notes)⟩ ∧
    ∀ x ∈ notes, ∃ h, ∀ o, exec (mgr.start o) x.state = (.error (.lockHeld o.command h), x.state)
  freed : free (exec (mgr.perform op) s).2
  next : ∀ o, (exec (mgr.start o) (exec (mgr.perform op) s).2).1 = .ok ()

/-- Overlapping operations under a lock that whoever has taken it holds against the others. -/
theorem overlapped {free : σ → Prop} {heldBy : LockHolder → σ → Prop} {taken : σ → Prop}
    (guards : mgr.lock.Guards free heldBy taken) (spares : mgr.Spares taken)
    (holds : ∀ s, taken s → ∃ h, heldBy h s) (op : Operation) (others : List Operation) (hs : free s) :
    mgr.Overlapped free op others s := by
  obtain ⟨t, hstart, ht⟩ := guards.grants hs op.command
  replace hstart : exec (mgr.start op) s = (.ok (), t) := hstart
  have hrefused : ∀ u, taken u → ∃ h, ∀ o,
      exec (mgr.start o) u = (.error (.lockHeld o.command h), u) := by
    intro u hu
    obtain ⟨h, hheld⟩ := holds u hu
    exact ⟨h, fun o => guards.refuses hheld o.command⟩
  obtain ⟨h, hothers⟩ := hrefused t ht
  obtain ⟨asked, hadds, -, hstates⟩ := spares.adds_carryOut op ht
  obtain ⟨u, hfinish, hu⟩ := exec_finish_of_taken guards spares op ht
  have hperform : exec (mgr.perform op) s = exec (mgr.finish op) t := by
    rw [perform, exec_bind, hstart]
  refine ⟨⟨h, ?_⟩, ⟨t, asked ++ [⟨.release, (exec (mgr.carryOut op) t).2⟩],
    (mgr.adds_start op s).bind hstart (adds_finish hadds), ?_, fun x hx => hrefused _ ?_⟩, ?_, fun o => ?_⟩
  · rw [hperform]
    refine run_overlap (f := fun o => .lockHeld o.command h) hstart ?_
    exact run_mapM (fun _ => t) (fun _ o => hothers o) others []
  · have hstart' := mgr.adds_start op s []
    rw [hstart] at hstart'
    -- Each of the others leaves the state as it is, with a note of its attempt.
    have hothers' := run_mapM (f := fun o => (mgr.watched.start o).run)
      (g := fun o => .error (.lockHeld o.command h))
      (fun past => ⟨t, ⟨.acquire op.command, s⟩ :: past.map fun o => ⟨.acquire o.command, t⟩⟩) ?_
      others []
    · rw [run_overlap (f := fun o => .lockHeld o.command h) hstart' hothers', adds_finish hadds,
        hperform]
      rfl
    · intro past o
      have hnoted := mgr.adds_start o t (⟨.acquire op.command, s⟩ ::
        past.map fun o => ⟨.acquire o.command, t⟩)
      rw [hothers o] at hnoted
      rw [List.map_append]
      exact hnoted
  · rcases List.mem_append.mp hx with hx | hx
    · exact hstates x hx
    · rw [List.mem_singleton.mp hx]
      exact spares.preserves_carryOut op t ht
  · rw [hperform, hfinish]
    exact hu
  · obtain ⟨v, hnext, -⟩ := guards.grants hu o.command
    rw [hperform, hfinish]
    exact congrArg Prod.fst hnext

end Manager

theorem Machine.aboutLock_owned (home : String) (n : Int) :
    AboutLock home (FileLock.Owned home n) where
  leads h := h.1.1.leads
  tree hne hsame := by
    rintro ⟨htaken, hruns, h, hnamed, hlive⟩
    refine ⟨(aboutLock_taken home).tree hne hsame htaken, hruns, h, ?_, hlive⟩
    rw [Contest.holder?, FileLock.target_pathIn] at hnamed ⊢
    rwa [FileLock.place, Path.place, hsame.read hne]
  calls calls h := ⟨(aboutLock_taken home).calls calls h.1, h.2⟩

/-- Operations of one process that overlap lose nothing of what the first of them does, whoever the manager
works with: under the lock in memory, and under the lock file of a process that runs, as long as the others
leave the lock alone. -/
theorem overlapping_operations_lose_nothing (op : Operation) (others : List Operation) :
    (∀ {σ : Type} (mgr : Manager (StateM σ)) (pid : Number) (now : StateM σ String)
        (cell : Cell (StateM σ) (Option LockHolder)) (holder : σ → Option LockHolder),
      cell.Lawful holder → mgr.lock = .inMemory pid now cell →
      mgr.Spares (fun s => (holder s).isSome) →
      ∀ s, holder s = none → mgr.Overlapped (holder · = none) op others s) ∧
    ∀ (mgr : Manager (StateM Machine)) (setup : Machine.Setup) (home : String) (n : Int),
      setup.pid = .ofInt n → mgr.lock = (FileLock.onMachine setup home).lock →
      mgr.Spares (FileLock.Owned home n) →
      ∀ m, FileLock.Free home m ∧ Contest.Runs m.running n →
        mgr.Overlapped (fun m => FileLock.Free home m ∧ Contest.Runs m.running n) op others m := by
  constructor
  · intro σ mgr pid now cell holder lawful hlock spares s hs
    have guards : mgr.lock.Guards (holder · = none) (fun h s => holder s = some h)
        fun s => (holder s).isSome := hlock ▸ guards_inMemory lawful fun _ h => h
    exact Manager.overlapped guards spares (fun s hs => Option.isSome_iff_exists.mp hs) op others hs
  · intro mgr setup home n hpid hlock spares m hm
    have guards : mgr.lock.Guards (fun m => FileLock.Free home m ∧ Contest.Runs m.running n)
        (FileLock.HeldBy home) (FileLock.Owned home n) :=
      hlock ▸ FileLock.guards_onMachine_of_runs setup hpid home
    exact Manager.overlapped guards spares (fun m hm => hm.2.2) op others hm

theorem Embedded.spares_holder (w : World) :
    (manager w : Manager (StateM Embedded)).Spares fun e => e.holder.isSome where
  reads _ he := he
  writes _ _ he := he
  appends _ _ he := he
  contracts _ _ he := he
  instanceToken _ he := he
  calls _ he := he
  recorded _ _ he := he
  now _ he := he
  nextEvent x hx e he := by
    simp only [manager] at hx
    split_ifs at hx
    · cases hx
      exact he
    · cases hx

def Machine.occupied : Machine :=
  { broken with running := [1] }

theorem Machine.free_occupied :
    FileLock.Free "/pro" occupied ∧ Contest.Runs occupied.running 1 :=
  ⟨FileLock.free_of_none alone_broken.1 alone_broken.2.1 rfl, by decide⟩

open Embedded in
/-- Attaching, with two more operations that are started before it has come to its end. -/
theorem overlapping_operations_lose_nothing_pair :
    (manager pairWorld : Manager (StateM Embedded)).Overlapped (·.holder = none) (.attach "t" true)
        [.change .enable ["a"] true false, .detach] .empty ∧
      (Machine.manager "event" "/pro" pairWorld).Overlapped
        (fun m => FileLock.Free "/pro" m ∧ Contest.Runs m.running 1) (.attach "t" true)
        [.change .enable ["a"] true false, .detach] .occupied := by
  obtain ⟨hmemory, hfiles⟩ := overlapping_operations_lose_nothing (.attach "t" true)
    [.change .enable ["a"] true false, .detach]
  exact ⟨hmemory (manager pairWorld) _ _ _ _ lawful_holderCell rfl (spares_holder _) .empty rfl,
    hfiles _ (Machine.setup "event" pairWorld) "/pro" 1 rfl rfl
      ((Machine.aboutLock_owned "/pro" 1).spares_manager _ _) .occupied Machine.free_occupied⟩

end Subscription
