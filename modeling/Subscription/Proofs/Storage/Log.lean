import Subscription.Proofs.Manager.Bracket
import Subscription.Proofs.Manager.RoundTrip

/-!
The file of the operation log. It holds one line after the other, each with a newline at its end, and is
not there before the first one. An operation goes to it in one place only, where a line is added; whatever
else is done, by the manager or by others, leaves it alone as long as it does not touch what stands on the
way there.
-/

namespace Subscription.Machine

open FileTree

variable {home directory line : String} {lines : List String} {t u : FileTree} {m : Machine}

def logPlace (home : String) : List String :=
  Path.place home "logs" ++ [Storage.operationLog]

theorem target_log (home : String) :
    Path.target (Storage.logPath home Storage.operationLog) = ⟨logPlace home, false⟩ :=
  target_below isName_logs isName_operationLog home

/-! ### Away from the log -/

def SameLog (home : String) (t u : FileTree) : Prop :=
  ∀ q, q <+: logPlace home → u.find? q = t.find? q

theorem SameLog.refl (home : String) (t : FileTree) : SameLog home t t :=
  fun _ _ => rfl

theorem SameLog.of_sameOutside (hne : directory ≠ "logs")
    (h : SameOutside (Path.place home directory) t u) : SameLog home t u := by
  intro q hq
  have hplace : logPlace home = Path.fromRoot home ++ "logs" :: [Storage.operationLog] :=
    List.append_assoc _ _ _
  rw [hplace] at hq
  exact h q (not_prefix_of_ne hne hq)

/-! ### The lines of the log -/

def framed (lines : List String) : String :=
  String.join (lines.map (· ++ "\n"))

theorem framed_concat (lines : List String) (line : String) :
    framed (lines ++ [line]) = framed lines ++ (line ++ "\n") := by
  simp [framed]

/-- The log holds some lines. Without any, there is no file. -/
structure Logged (home : String) (lines : List String) (t : FileTree) : Prop where
  absent : lines = [] → t.find? (logPlace home) = none
  text : lines ≠ [] → t.read ⟨logPlace home, false⟩ = .ok (framed lines)

theorem Logged.of_sameLog (h : Logged home lines t) (hsame : SameLog home t u) : Logged home lines u where
  absent hnil := (hsame _ (List.prefix_refl _)).trans (h.absent hnil)
  text hne := by
    have hread := h.text hne
    rw [FileTree.read, reach] at hread ⊢
    rwa [walk_congr hsame]

theorem Logged.find? (h : Logged home lines t) :
    t.find? (logPlace home) = if lines = [] then none else some (.file (framed lines)) := by
  split
  · next hnil => exact h.absent hnil
  · next hne => exact (read_eq_ok_iff.mp (h.text hne)).2

theorem logged_of_find? (hleads : t.Leads (Path.place home "logs"))
    (h : t.find? (logPlace home) = if lines = [] then none else some (.file (framed lines))) :
    Logged home lines t := by
  refine ⟨fun hnil => ?_, fun hne => read_eq_ok_iff.mpr ⟨hleads, ?_⟩⟩
  · rwa [if_pos hnil] at h
  · rwa [if_neg hne] at h

/-- A line is added in a directory that is there. -/
theorem Logged.append (h : Logged home lines t) (hleads : t.Leads (Path.place home "logs"))
    (line : String) :
    ∃ u, t.modify ⟨logPlace home, false⟩ (· ++ (line ++ "\n")) = .ok u ∧
      Logged home (lines ++ [line]) u := by
  have hne : lines ++ [line] ≠ [] := by simp
  refine ⟨t.set (logPlace home) (.file (framed (lines ++ [line]))), ?_, logged_of_find? ?_ ?_⟩
  · rw [framed_concat, FileTree.modify, if_neg Bool.false_ne_true, logPlace, reach_child hleads, ← logPlace,
      h.find?]
    by_cases hnil : lines = []
    · rw [hnil]
      exact make_child hleads _
    · rw [if_neg hnil]
  · exact (sameOutside_set _).leads hleads
  · rw [if_neg hne]
    exact find?_set_self t _ (by simp [logPlace])

/-- A line is added, or nothing happens at all since the directory cannot be made. -/
theorem Logged.exec_append (h : Logged home lines m.tree) (line : String) :
    (∃ u, exec ((storage home).append Storage.operationLog line) m = (.ok (), { m with tree := u }) ∧
        Logged home (lines ++ [line]) u) ∨
      ∃ f, exec ((storage home).append Storage.operationLog line) m = (.error f, m) := by
  rw [Machine.exec_append, target_log, Path.target_join isName_logs]
  rcases makeDirs_cases m.tree (Path.place home "logs") false with
    ⟨-, u, hmake, hleads, hsame⟩ | ⟨-, e, hmake⟩
  · -- Directories on the way may be new, but what stands at the end of it is what stood there.
    have hfile : u.find? (logPlace home) = m.tree.find? (logPlace home) :=
      hsame _ (not_beyond (List.prefix_refl _))
    obtain ⟨v, hmodify, hv⟩ := (logged_of_find? hleads (hfile.trans h.find?)).append hleads line
    simp only [hmake, hmodify]
    exact Or.inl ⟨v, rfl, hv⟩
  · rw [hmake]
    exact Or.inr ⟨_, rfl⟩

/-! ### The log while an operation has the lock -/

theorem Logged.of_aside {m' : Machine} (h : Logged home lines m.tree)
    (ha : Aside (FileLock.place home) m m') : Logged home lines m'.tree :=
  h.of_sameLog (.of_sameOutside (by decide) ha.tree)

structure Busy (home : String) (lines : List String) (m : Machine) : Prop where
  has : FileLock.Has home m
  logged : Logged home lines m.tree

theorem Busy.of_sameOutside (hlock : directory ≠ "lock") (hlogs : directory ≠ "logs")
    (hsame : SameOutside (Path.place home directory) m.tree u) (h : Busy home lines m) :
    Busy home lines { m with tree := u } :=
  ⟨has_of_sameOutside hlock hsame h.has, h.logged.of_sameLog (.of_sameOutside hlogs hsame)⟩

theorem Busy.exec_append (h : Busy home lines m) (line : String) :
    (∃ m', exec ((storage home).append Storage.operationLog line) m = (.ok (), m') ∧
        Busy home (lines ++ [line]) m') ∨
      ∃ f, exec ((storage home).append Storage.operationLog line) m = (.error f, m) := by
  have hhas := preserves_append (fun hm : FileLock.Has home _ => hm.leads)
    (has_of_sameOutside (by decide)) isName_operationLog line m h.has
  refine (h.logged.exec_append line).imp_left ?_
  rintro ⟨u, hexec, hu⟩
  have hstate : (exec ((Storage.inFiles files home).append Storage.operationLog line) m).2 =
      { m with tree := u } := congrArg Prod.snd hexec
  exact ⟨_, hexec, hstate ▸ hhas, hu⟩

end Subscription.Machine
