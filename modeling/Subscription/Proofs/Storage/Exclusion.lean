import Subscription.Proofs.Storage.Contest

/-!
The lock of a home directory admits one holder, whatever several contenders do: they take the lock and
give it back, their processes die, and another process may write to the place of the lock file whenever
it has been removed. Every step preserves that at most one live contender has the lock and that the lock
file names it. So the others find a live holder there, while the file of a dead one is in nobody's way.
-/

namespace Subscription.Contest

/-! ### The steps of a contest -/

/-- What happens in a contest. At the moment when a contender removes the lock file, another process may
write a text to its place. -/
inductive Event where
  | acquire (contender : Nat) (command : Text) (now : String) (intruder : Option String)
  | release (contender : Nat) (intruder : Option String)
  | crash (pid : Int)

structure Grant where
  contender : Nat
  command : Text
deriving DecidableEq

structure State where
  standing : Standing
  grants : List Grant

namespace State

abbrev machine (x : State) : Machine :=
  x.standing.machine

def start (m : Machine) : State :=
  ⟨⟨[], m⟩, []⟩

end State

def Standing.facing (s : Standing) (intruder : Option String) : Standing :=
  { s with machine := { s.machine with intruder := intruder } }

variable (home : String) (pidOf : Nat → Int)

abbrev lockOf (now : String) (c : Nat) : FileLock Contest :=
  fileLock home now (.ofInt (pidOf c)) c

/-- Goes on with a contest. A contender whose process does not run takes no step. -/
def step (x : State) : Event → State
  | .acquire c command now intruder =>
    if Runs x.machine.running (pidOf c) then
      match exec ((lockOf home pidOf now c).acquire command) (x.standing.facing intruder) with
      | (.ok (), t) => ⟨t, ⟨c, command⟩ :: x.grants⟩
      | (.error _, t) => ⟨t, x.grants⟩
    else x
  | .release c intruder =>
    if Runs x.machine.running (pidOf c) then
      match exec (lockOf home pidOf "" c).release (x.standing.facing intruder) with
      | (.ok (), t) => ⟨t, x.grants.filter (·.contender ≠ c)⟩
      | (.error _, t) => ⟨t, x.grants⟩
    else x
  | .crash pid =>
    let m := x.machine
    { x with standing := { x.standing with machine :=
      { m with running := m.running.filter (· ≠ pid) } } }

def live (x : State) : List Grant :=
  x.grants.filter fun g => Runs x.machine.running (pidOf g.contender)

/-- What holds throughout a contest. -/
structure Sound (x : State) : Prop where
  holding : ∀ c, c ∈ x.standing.holding ↔ ∃ g ∈ x.grants, g.contender = c
  named : ∀ g ∈ live pidOf x, ∃ acquiredAt,
    x.machine.tree.read ⟨FileLock.place home, false⟩ =
      .ok (LockHolder.toJson ⟨.ofInt (pidOf g.contender), g.command, acquiredAt⟩).compact
  single : (live pidOf x).length ≤ 1

variable {home now : String} {pidOf : Nat → Int} {command : Text} {x : State}

theorem sound_start (m : Machine) : Sound home pidOf (.start m) :=
  ⟨fun c => by simp [State.start], nofun, Nat.zero_le 1⟩

theorem mem_live {g : Grant} :
    g ∈ live pidOf x ↔ g ∈ x.grants ∧ Runs x.machine.running (pidOf g.contender) := by
  simp [live]

theorem Sound.eq_of_live (h : Sound home pidOf x) {g g' : Grant} (hg : g ∈ live pidOf x)
    (hg' : g' ∈ live pidOf x) : g = g' := by
  have hsingle := h.single
  generalize live pidOf x = gs at hg hg' hsingle
  rcases gs with _ | ⟨a, _ | ⟨b, gs⟩⟩
  · exact absurd hg List.not_mem_nil
  · exact (List.mem_singleton.mp hg).trans (List.mem_singleton.mp hg').symm
  · exact absurd hsingle (by simp)

theorem Sound.exists_holder (h : Sound home pidOf x) {g : Grant} (hg : g ∈ live pidOf x) :
    ∃ holder, holder? home x.machine.tree = some holder ∧ holder.pid = .ofInt (pidOf g.contender) ∧
      holder.command = g.command ∧ IsLive x.machine.running holder := by
  obtain ⟨acquiredAt, hread⟩ := h.named g hg
  have hruns := (mem_live.mp hg).2
  have hsmall : (pidOf g.contender).natAbs < 2 ^ 52 := by
    have hbounds := hruns.1
    omega
  refine ⟨⟨.ofInt (pidOf g.contender), g.command, acquiredAt⟩, ?_, rfl, rfl, _, ?_, hruns⟩
  · exact holder?_eq_some_iff.mpr ⟨_, hread, LockHolder.ofText?_toJson hsmall _ _⟩
  · exact Number.toInt?_ofInt hsmall

theorem sound_of_free (hholding : ∀ c, c ∈ x.standing.holding ↔ ∃ g ∈ x.grants, g.contender = c)
    (hlive : live pidOf x = []) : Sound home pidOf x := by
  refine ⟨hholding, fun g hg => ?_, ?_⟩
  · rw [hlive] at hg
    exact absurd hg List.not_mem_nil
  · rw [hlive]
    exact Nat.zero_le 1

theorem live_congr {t : Standing} (h : t.machine.running = x.machine.running) (grants : List Grant) :
    live pidOf ⟨t, grants⟩ = live pidOf ⟨x.standing, grants⟩ := by
  unfold live
  rw [h]

/-- Once a contender has taken the lock, it is the only live one that has it. -/
theorem sound_of_took {t : Standing} {c : Nat} {intruder : Option String}
    (hholding : ∀ c, c ∈ x.standing.holding ↔ ∃ g ∈ x.grants, g.contender = c)
    (hlive : live pidOf x = []) (hruns : Runs x.machine.running (pidOf c))
    (h : Took home now (.ofInt (pidOf c)) c command (x.standing.facing intruder) t) :
    Sound home pidOf ⟨t, ⟨c, command⟩ :: x.grants⟩ := by
  have halone : live pidOf ⟨t, ⟨c, command⟩ :: x.grants⟩ = [⟨c, command⟩] := by
    rw [live_congr h.running]
    unfold live at hlive ⊢
    simp only [List.filter_cons, hruns, decide_true, if_true]
    exact congrArg (List.cons _) hlive
  refine ⟨fun c' => ?_, fun g hg => ?_, halone ▸ Nat.le_refl 1⟩
  · have hjoined : c' ∈ joined c x.standing.holding ↔ c' = c ∨ c' ∈ x.standing.holding := by
      by_cases hc : c' = c <;> simp [joined, hc]
    rw [h.holding, List.exists_mem_cons_iff, eq_comm, ← hholding c']
    exact hjoined
  · rw [halone, List.mem_singleton] at hg
    subst hg
    exact ⟨now, h.read⟩

theorem sound_acquire (h : Sound home pidOf x) (c : Nat) (command : Text) (now : String)
    (intruder : Option String) :
    Sound home pidOf (step home pidOf x (.acquire c command now intruder)) := by
  rw [step]
  split
  case isFalse => exact h
  case isTrue hruns =>
    rcases hlive : live pidOf x with _ | ⟨g, gs⟩
    · rcases acquire_cases home now (.ofInt (pidOf c)) c command (x.standing.facing intruder) with
        ⟨t, hexec, htook⟩ | ⟨f, t, hexec, hfailed⟩
      · rw [hexec]
        exact sound_of_took h.holding hlive hruns htook
      · rw [hexec]
        refine sound_of_free (fun c' => ?_) ?_
        · rw [hfailed.holding]
          exact h.holding c'
        · rw [← hlive]
          exact live_congr hfailed.running x.grants
    · -- There is a live holder, so that nothing happens.
      have hg : g ∈ live pidOf x := hlive ▸ List.mem_cons_self
      obtain ⟨holder, hnamed, -, -, hisLive⟩ := h.exists_holder hg
      rw [exec_acquire_of_isLive (s := x.standing.facing intruder) hnamed hisLive]
      exact ⟨h.holding, h.named, h.single⟩

theorem sound_release (h : Sound home pidOf x) (c : Nat) (intruder : Option String) :
    Sound home pidOf (step home pidOf x (.release c intruder)) := by
  have hgrants : ∀ c', c' ∈ x.standing.holding.filter (· ≠ c) ↔
      ∃ g ∈ x.grants.filter (·.contender ≠ c), g.contender = c' := by
    intro c'
    rw [List.mem_filter, h.holding c']
    constructor
    · rintro ⟨⟨g, hg, rfl⟩, hne⟩
      exact ⟨g, List.mem_filter.mpr ⟨hg, hne⟩, rfl⟩
    · rintro ⟨g, hg, rfl⟩
      obtain ⟨hg, hne⟩ := List.mem_filter.mp hg
      exact ⟨⟨g, hg, rfl⟩, hne⟩
  rw [step]
  split
  case isFalse => exact h
  case isTrue hruns =>
    by_cases hc : c ∈ x.standing.holding
    · obtain ⟨g, hg, rfl⟩ := (h.holding c).mp hc
      have hg : g ∈ live pidOf x := mem_live.mpr ⟨hg, hruns⟩
      obtain ⟨acquiredAt, hread⟩ := h.named g hg
      obtain ⟨t, hexec, hholding, hrunning⟩ :=
        exec_release_of_mem (s := x.standing.facing intruder) hc hread
      rw [hexec]
      refine sound_of_free (fun c' => ?_) ?_
      · rw [hholding]
        exact hgrants c'
      · rw [live_congr hrunning, List.eq_nil_iff_forall_not_mem]
        intro g' hg'
        obtain ⟨hg', hruns'⟩ := mem_live.mp hg'
        obtain ⟨hg', hne⟩ := List.mem_filter.mp hg'
        have hsame := h.eq_of_live (mem_live.mpr ⟨hg', hruns'⟩) hg
        exact of_decide_eq_true hne (congrArg Grant.contender hsame)
    · rw [exec_release_of_not_mem (s := x.standing.facing intruder) hc]
      have hkept : x.grants.filter (·.contender ≠ c) = x.grants :=
        List.filter_eq_self.mpr fun g hg => decide_eq_true fun e => hc ((h.holding c).mpr ⟨g, hg, e⟩)
      dsimp only
      rw [hkept]
      exact ⟨h.holding, h.named, h.single⟩

theorem sound_crash (h : Sound home pidOf x) (pid : Int) :
    Sound home pidOf (step home pidOf x (.crash pid)) := by
  have hless : (live pidOf (step home pidOf x (.crash pid))).Sublist (live pidOf x) := by
    refine List.monotone_filter_right x.grants fun g hg => ?_
    obtain ⟨hbounds, hmem⟩ := of_decide_eq_true hg
    exact decide_eq_true ⟨hbounds, List.mem_of_mem_filter hmem⟩
  exact ⟨h.holding, fun g hg => h.named g (hless.subset hg), hless.length_le.trans h.single⟩

theorem Sound.step (h : Sound home pidOf x) (e : Event) : Sound home pidOf (step home pidOf x e) := by
  cases e with
  | acquire c command now intruder => exact sound_acquire h c command now intruder
  | release c intruder => exact sound_release h c intruder
  | crash pid => exact sound_crash h pid

/-! ### Whole contests -/

def play (home : String) (pidOf : Nat → Int) (m : Machine) (events : List Event) : State :=
  events.foldl (Contest.step home pidOf) (.start m)

theorem sound_play (home : String) (pidOf : Nat → Int) (m : Machine) (events : List Event) :
    Sound home pidOf (play home pidOf m events) := by
  have h : ∀ x, Sound home pidOf x → Sound home pidOf (events.foldl (Contest.step home pidOf) x) := by
    induction events with
    | nil => exact fun _ h => h
    | cons e events ih => exact fun x h => ih _ (h.step e)
  exact h _ (sound_start m)

/-- What it means that the lock of a home directory admits one holder. -/
structure Exclusive (home : String) (pidOf : Nat → Int) (x : State) : Prop where
  /-- At most one live contender has taken the lock and not given it back. -/
  single : (live pidOf x).length ≤ 1
  /-- The lock file names that contender by its number and command, as a live holder. -/
  named : ∀ g ∈ live pidOf x, ∃ holder, holder? home x.machine.tree = some holder ∧
    holder.pid = .ofInt (pidOf g.contender) ∧ holder.command = g.command ∧
    IsLive x.machine.running holder
  /-- Taking the lock from a live holder fails and changes nothing. -/
  refused : ∀ holder, holder? home x.machine.tree = some holder → IsLive x.machine.running holder →
    ∀ now c command intruder,
      exec ((lockOf home pidOf now c).acquire command) (x.standing.facing intruder) =
        (.error (.lockHeld command holder), x.standing.facing intruder)
  /-- In a home directory, the lock is taken when there is no file, or that of a dead holder, and no other
  process makes it anew. -/
  taken : x.machine.tree.Leads (Path.fromRoot home) →
    (∀ node, x.machine.tree.find? (FileLock.place home) = some node → ∃ text, node = .file text ∧
      ∀ holder, LockHolder.ofText? text = some holder → ¬IsLive x.machine.running holder) →
    ∀ now c command, ∃ t,
      exec ((lockOf home pidOf now c).acquire command) (x.standing.facing none) = (.ok (), t) ∧
        Took home now (.ofInt (pidOf c)) c command x.standing t
  /-- Taking the lock fails when the file of a dead holder has been removed and another process makes it
  anew. -/
  overtaken : ∀ text, x.machine.tree.read (Path.target (FileLock.pathIn home)) = .ok text →
    (∀ holder, LockHolder.ofText? text = some holder → ¬IsLive x.machine.running holder) →
    ∀ now c command text', ∃ t,
      exec ((lockOf home pidOf now c).acquire command) (x.standing.facing (some text')) =
        (.error (.lockHeld command ((LockHolder.ofText? text').getD .unknown)), t) ∧
      t.holding = x.standing.holding ∧
      t.machine.tree.read (Path.target (FileLock.pathIn home)) = .ok text'
  /-- A contender that does not have the lock changes nothing by giving it back. -/
  idle : ∀ c, (∀ g ∈ x.grants, g.contender ≠ c) → ∀ now intruder,
    exec (lockOf home pidOf now c).release (x.standing.facing intruder) =
      (.ok (), x.standing.facing intruder)

theorem Sound.exclusive (h : Sound home pidOf x) : Exclusive home pidOf x where
  single := h.single
  named g hg := h.exists_holder hg
  refused holder hnamed hlive now c command intruder :=
    exec_acquire_of_isLive (s := x.standing.facing intruder) hnamed hlive
  taken hleads hfree now c command := by
    obtain ⟨t, hexec⟩ := exec_acquire_of_free (s := x.standing.facing none) hleads hfree rfl
    have htook := took_of_exec hexec
    exact ⟨t, hexec, htook.holding, htook.running, htook.read⟩
  overtaken text hread hdead now c command text' := by
    rw [FileLock.target_pathIn] at hread ⊢
    exact exec_acquire_of_intruder (s := x.standing.facing (some text')) hread hdead rfl
  idle c hc now intruder := by
    refine exec_release_of_not_mem fun hmem => ?_
    obtain ⟨g, hg, hcontender⟩ := (h.holding c).mp hmem
    exact hc g hg hcontender

/-- However contenders take the lock, give it back and die, it admits one holder. -/
theorem lock_admits_one (home : String) (pidOf : Nat → Int) (m : Machine) (events : List Event) :
    Exclusive home pidOf (play home pidOf m events) :=
  (sound_play home pidOf m events).exclusive

def twoRunning : Machine :=
  { Machine.ofTree ⟨[(["srv"], .directory)]⟩ with running := [7, 8] }

def ownPid (c : Nat) : Int :=
  if c = 0 then 7 else 8

def handover : List Event :=
  [.acquire 0 "refresh" "2024-05-01T10:00:00.000Z" none, .crash 7,
    .acquire 1 "attach" "2024-05-01T10:05:00.000Z" none]

/-- After the handover, the lock is refused to a third contender. -/
theorem lock_admits_one_handover :
    live ownPid (play "/srv" ownPid twoRunning handover) = [⟨1, "attach"⟩] ∧
      ∃ holder, holder.pid = .ofInt 8 ∧ holder.command = .ofString "attach" ∧
        exec ((lockOf "/srv" ownPid "2024-05-01T10:06:00.000Z" 2).acquire "enable")
            ((play "/srv" ownPid twoRunning handover).standing.facing none) =
          (.error (.lockHeld "enable" holder),
            (play "/srv" ownPid twoRunning handover).standing.facing none) := by
  have hexclusive := lock_admits_one "/srv" ownPid twoRunning handover
  have hlive : live ownPid (play "/srv" ownPid twoRunning handover) = [⟨1, "attach"⟩] := by
    decide +kernel
  have hmem : (⟨1, "attach"⟩ : Grant) ∈ live ownPid (play "/srv" ownPid twoRunning handover) := by
    rw [hlive]
    exact List.mem_cons_self
  obtain ⟨holder, hnamed, hpid, hcommand, hisLive⟩ := hexclusive.named _ hmem
  exact ⟨hlive, holder, hpid, hcommand, hexclusive.refused holder hnamed hisLive _ _ _ _⟩

end Subscription.Contest
