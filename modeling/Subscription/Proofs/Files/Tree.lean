import Mathlib.Data.List.Infix
import Subscription.Files.Tree

/-!
What the operations on a tree do at a name in a directory. Each of them looks at the directories that
lead there and at what has the name, and a change is confined to the name. With nothing but directories
on the way to a name, and no directory at it, a file is written there whether or not the last directory
is there yet.
-/

namespace Subscription.FileTree

variable {t u : FileTree} {p rest : List String} {n : String}

/-! ### Directories on the way -/

theorem not_beyond {q : List String} (hq : q <+: p) : ¬p ++ [n] <+: q := by
  intro h
  have hlength := (h.trans hq).length_le
  rw [List.length_append, List.length_singleton] at hlength
  omega

/-- Every place on the way to the end of some steps is a directory, and so is the end. -/
def Leads (t : FileTree) (p : List String) : Prop :=
  ∀ q, q <+: p → t.find? q = some .directory

/-- There is no file on the way to the end of some steps or at the end. -/
def Passable (t : FileTree) (p : List String) : Prop :=
  ∀ q, q <+: p → ∀ text, t.find? q ≠ some (.file text)

theorem leads_append_single :
    t.Leads (p ++ [n]) ↔ t.Leads p ∧ t.find? (p ++ [n]) = some .directory := by
  constructor
  · exact fun h => ⟨fun q hq => h q (hq.trans (List.prefix_append p [n])), h _ (List.prefix_refl _)⟩
  · rintro ⟨hp, hn⟩ q hq
    rcases List.prefix_concat_iff.mp hq with rfl | hq
    · exact hn
    · exact hp q hq

theorem Leads.passable (h : t.Leads p) : t.Passable p := by
  intro q hq text hfile
  rw [h q hq] at hfile
  cases hfile

theorem Passable.above {q : List String} (h : t.Passable p) (hq : q <+: p) : t.Passable q :=
  fun r hr => h r (hr.trans hq)

theorem walk_append (t : FileTree) (taken p : List String) (n : String) (rest : List String) :
    t.walk taken (p ++ n :: rest) =
      match t.walk taken p with
      | .ok .directory => t.walk (taken ++ p ++ [n]) rest
      | .ok (.file _) => .error .notDirectory
      | .error e => .error e := by
  induction p generalizing taken with
  | nil =>
    simp only [List.nil_append, List.append_nil, walk]
    rcases t.find? taken with _ | _ | _ <;> rfl
  | cons step p ih =>
    simp only [List.cons_append, walk]
    rcases t.find? taken with _ | _ | _
    · rfl
    · rfl
    · simp [ih]

theorem walk_append_single (t : FileTree) (p : List String) (n : String) :
    t.walk [] (p ++ [n]) =
      match t.walk [] p with
      | .ok .directory =>
        match t.find? (p ++ [n]) with
        | some node => .ok node
        | none => .error .missing
      | .ok (.file _) => .error .notDirectory
      | .error e => .error e :=
  walk_append t [] p n []

theorem walk_eq_directory_iff : t.walk [] p = .ok .directory ↔ t.Leads p := by
  induction p using List.reverseRecOn with
  | nil =>
    refine ⟨fun _ q hq => ?_, fun _ => rfl⟩
    rw [List.prefix_nil.mp hq]
    rfl
  | append_singleton p n ih =>
    rw [walk_append_single, leads_append_single, ← ih]
    rcases t.walk [] p with _ | _ | _ <;> rcases t.find? (p ++ [n]) with _ | _ | _ <;> simp

theorem walk_of_not_leads (h : t.Passable p) (hleads : ¬t.Leads p) :
    t.walk [] p = .error .missing := by
  induction p using List.reverseRecOn with
  | nil => exact absurd (walk_eq_directory_iff.mp rfl) hleads
  | append_singleton p n ih =>
    rw [walk_append_single]
    by_cases hp : t.Leads p
    · rw [walk_eq_directory_iff.mpr hp]
      rcases hn : t.find? (p ++ [n]) with _ | text | _
      · rfl
      · exact absurd hn (h _ (List.prefix_refl _) text)
      · exact absurd (leads_append_single.mpr ⟨hp, hn⟩) hleads
    · rw [ih (h.above (List.prefix_append p [n])) hp]

theorem walk_congr (h : ∀ q, q <+: p → u.find? q = t.find? q) : u.walk [] p = t.walk [] p := by
  induction p using List.reverseRecOn with
  | nil => rfl
  | append_singleton p n ih =>
    rw [walk_append_single, walk_append_single,
      ih fun q hq => h q (hq.trans (List.prefix_append p [n])), h _ (List.prefix_refl _)]

theorem walk_ne_taken (t : FileTree) (taken p : List String) : t.walk taken p ≠ .error .taken := by
  induction p generalizing taken with
  | nil =>
    rw [walk]
    rcases t.find? taken with _ | _ <;> simp
  | cons step p ih =>
    rw [walk]
    rcases t.find? taken with _ | _ | _
    · simp
    · simp
    · exact ih _

/-- What is come upon at the end of some steps stands there. -/
theorem find?_of_walk {node : FileNode} (h : t.walk [] p = .ok node) : t.find? p = some node := by
  cases p using List.reverseRecOn with
  | nil => exact congrArg some (Except.ok.inj h)
  | append_singleton p n =>
    rw [walk_append_single] at h
    generalize t.walk [] p = above at h
    rcases above with _ | _ | _
    · cases h
    · cases h
    · rcases hn : t.find? (p ++ [n]) with _ | there
      all_goals
        rw [hn] at h
        cases h
      rfl

/-- A change of a file, wherever it is, leaves every directory and makes no other file. -/
theorem modify_eq_ok {q : Path.Target} {change : String → String} (h : t.modify q change = .ok u) :
    t.find? q.steps ≠ some .directory ∧ ∃ old, u = t.set q.steps (.file (change old)) := by
  obtain ⟨p, directory⟩ := q
  cases directory with
  | true => cases h
  | false =>
    have hreach : t.reach ⟨p, false⟩ = t.walk [] p := by
      rw [reach]
      rcases t.walk [] p with _ | _ | _ <;> rfl
    rw [modify, if_neg Bool.false_ne_true, hreach] at h
    rcases hwalk : t.walk [] p with e | text | _
    · rw [hwalk] at h
      cases e with
      | missing =>
        cases p using List.reverseRecOn with
        | nil => cases hwalk
        | append_singleton p n =>
          -- The file is made, so the way there has an end, and it is missing at this end only.
          simp only [make, List.dropLast_concat] at h
          rw [walk_append_single] at hwalk
          rcases habove : t.walk [] p with e | text | _
          all_goals rw [habove] at h hwalk
          · cases h
          · cases hwalk
          · refine ⟨fun hdirectory => ?_, "", (Except.ok.inj h).symm⟩
            rw [hdirectory] at hwalk
            cases hwalk
      | taken | isDirectory | notDirectory | notRemovable => cases h
    · rw [hwalk] at h
      refine ⟨?_, text, (Except.ok.inj h).symm⟩
      rw [find?_of_walk hwalk]
      nofun
    · rw [hwalk] at h
      cases h

/-! ### Operations at a name in a directory -/

section Child

variable (hp : t.Leads p)
include hp

theorem reach_child :
    t.reach ⟨p ++ [n], false⟩ =
      match t.find? (p ++ [n]) with
      | some node => .ok node
      | none => .error .missing := by
  rw [reach, walk_append_single, walk_eq_directory_iff.mpr hp]
  rcases t.find? (p ++ [n]) with _ | _ | _ <;> rfl

theorem make_child (text : String) : t.make (p ++ [n]) text = .ok (t.set (p ++ [n]) (.file text)) := by
  rw [make, List.dropLast_concat, walk_eq_directory_iff.mpr hp]

theorem modify_child (h : t.find? (p ++ [n]) ≠ some .directory) (change : String → String) :
    ∃ old, t.modify ⟨p ++ [n], false⟩ change = .ok (t.set (p ++ [n]) (.file (change old))) := by
  rw [modify, reach_child hp]
  rcases hn : t.find? (p ++ [n]) with _ | old | _
  · exact ⟨"", make_child hp _⟩
  · exact ⟨old, rfl⟩
  · exact absurd hn h

theorem modify_directory (h : t.find? (p ++ [n]) = some .directory) (change : String → String) :
    t.modify ⟨p ++ [n], false⟩ change = .error .isDirectory := by
  rw [modify, reach_child hp, h]
  rfl

theorem create_child (text : String) :
    t.create ⟨p ++ [n], false⟩ text =
      if t.find? (p ++ [n]) = none then .ok (t.set (p ++ [n]) (.file text)) else .error .taken := by
  rw [create, reach_child hp]
  rcases t.find? (p ++ [n]) with _ | _ | _
  · exact make_child hp text
  · rfl
  · rfl

theorem remove_child {text : String} (h : t.find? (p ++ [n]) = some (.file text)) :
    t.remove ⟨p ++ [n], false⟩ = .ok (t.erase (p ++ [n])) := by
  rw [remove, reach_child hp, h]

theorem makeDirsFrom_append (last : FileError) (rest : List String) :
    t.makeDirsFrom last [] (p ++ rest) = t.makeDirsFrom last p rest := by
  -- By induction on what is left of the way, which is why the steps taken so far vary.
  suffices H : ∀ ps taken, p = taken ++ ps →
      t.makeDirsFrom last taken (ps ++ rest) = t.makeDirsFrom last p rest from H p [] rfl
  intro ps
  induction ps with
  | nil =>
    rintro taken rfl
    rw [List.append_nil, List.nil_append]
  | cons step ps ih =>
    intro taken h
    have hhere : t.find? (taken ++ [step]) = some .directory :=
      hp _ ⟨ps, by rw [h, List.append_assoc]; rfl⟩
    rw [List.cons_append, makeDirsFrom]
    simp only [hhere]
    exact ih _ (by rw [h, List.append_assoc]; rfl)

theorem makeDirs_of_leads (open? : Bool) : t.makeDirs ⟨p, open?⟩ = .ok t := by
  have h := makeDirsFrom_append hp (if open? then .notDirectory else .taken) []
  rw [List.append_nil] at h
  exact h

theorem put_child (h : t.find? (p ++ [n]) = none) (text : String) :
    t.put ⟨p ++ [n], false⟩ (.file text) = (t.set (p ++ [n]) (.file text), .ok ()) := by
  have hfree : t.find? (p ++ [n]) ≠ some .directory := by simp [h]
  obtain ⟨old, hmodify⟩ := modify_child hp hfree fun _ => text
  simp only [put, List.dropLast_concat, attempt, makeDirs_of_leads hp, write, hmodify]

theorem remove_directory (h : t.find? (p ++ [n]) = some .directory) :
    t.remove ⟨p ++ [n], false⟩ = .error .notRemovable := by
  rw [remove, reach_child hp, h]

theorem leads_set_directory (n : String) : (t.set (p ++ [n]) .directory).Leads (p ++ [n]) := by
  refine leads_append_single.mpr ⟨fun q hq => ?_, find?_set_self t _ (by simp)⟩
  have hne : q ≠ p ++ [n] := by
    rintro rfl
    exact not_beyond hq (List.prefix_refl _)
  rw [find?_set_of_ne t _ hne]
  exact hp q hq

theorem makeDirs_child (h : ∀ text, t.find? (p ++ [n]) ≠ some (.file text)) (open? : Bool) :
    ∃ u, t.makeDirs ⟨p ++ [n], open?⟩ = .ok u ∧ u.Leads (p ++ [n]) ∧
      ∀ q ≠ p ++ [n], u.find? q = t.find? q := by
  rw [makeDirs, makeDirsFrom_append hp, makeDirsFrom]
  rcases hn : t.find? (p ++ [n]) with _ | text | _
  · exact ⟨_, rfl, leads_set_directory hp n, fun q hq => find?_set_of_ne t .directory hq⟩
  · exact absurd hn (h text)
  · exact ⟨t, rfl, leads_append_single.mpr ⟨hp, hn⟩, fun _ _ => rfl⟩

end Child

theorem passable_set_directory (hn : t.find? p = none) (q : List String) :
    (t.set p .directory).Passable q ↔ t.Passable q := by
  have hne : p ≠ [] := by
    rintro rfl
    cases hn
  refine forall₃_congr fun r _ text => ?_
  by_cases hr : r = p
  · rw [hr, find?_set_self t _ hne, hn]
    simp
  · rw [find?_set_of_ne t _ hr]

/-- Making the directories along some steps, from a place that is there on: it fails if there is a file
on the way, and leaves everything else as it was. -/
theorem makeDirsFrom_cases (last : FileError) {taken : List String} (hleads : t.Leads taken)
    (rest : List String) :
    (t.Passable (taken ++ rest) ∧ ∃ u, t.makeDirsFrom last taken rest = .ok u ∧
        u.Leads (taken ++ rest) ∧ ∀ q, ¬q <+: taken ++ rest → u.find? q = t.find? q) ∨
      (¬t.Passable (taken ++ rest) ∧ ∃ e, t.makeDirsFrom last taken rest = .error e) := by
  induction rest generalizing t taken with
  | nil =>
    rw [List.append_nil]
    exact Or.inl ⟨hleads.passable, t, rfl, hleads, fun _ _ => rfl⟩
  | cons step rest ih =>
    have hway : taken ++ step :: rest = taken ++ [step] ++ rest := by simp
    have hhere : taken ++ [step] <+: taken ++ step :: rest := ⟨rest, hway.symm⟩
    rw [makeDirsFrom]
    rcases hn : t.find? (taken ++ [step]) with _ | text | _
    · have hpassable := passable_set_directory hn (taken ++ step :: rest)
      have hrest := ih (leads_set_directory hleads step)
      rw [← hway] at hrest
      refine hrest.imp ?_ ?_
      · rintro ⟨h, u, hmake, hu, hsame⟩
        refine ⟨hpassable.mp h, u, hmake, hu, fun q hq => ?_⟩
        have hother : q ≠ taken ++ [step] := fun e => hq (e ▸ hhere)
        rw [hsame q hq, find?_set_of_ne t _ hother]
      · exact fun h => ⟨fun hp => h.1 (hpassable.mpr hp), h.2⟩
    · exact Or.inr ⟨fun h => h _ hhere text hn, _, rfl⟩
    · rw [hway]
      exact ih (leads_append_single.mpr ⟨hleads, hn⟩)

theorem makeDirs_cases (t : FileTree) (p : List String) (open? : Bool) :
    (t.Passable p ∧ ∃ u, t.makeDirs ⟨p, open?⟩ = .ok u ∧ u.Leads p ∧
        ∀ q, ¬q <+: p → u.find? q = t.find? q) ∨
      (¬t.Passable p ∧ ∃ e, t.makeDirs ⟨p, open?⟩ = .error e) :=
  have hroot : t.Leads [] := walk_eq_directory_iff.mp rfl
  makeDirsFrom_cases _ hroot p

theorem create_of_not_leads (hleads : ¬t.Leads p) (text : String) :
    ∃ e, e ≠ .taken ∧ t.create ⟨p ++ [n], false⟩ text = .error e := by
  have hwalk : t.walk [] p ≠ .ok .directory := fun h => hleads (walk_eq_directory_iff.mp h)
  have htaken : t.walk [] p ≠ .error .taken := walk_ne_taken t [] p
  simp only [create, reach, walk_append_single, make, List.dropLast_concat]
  generalize t.walk [] p = node at hwalk htaken ⊢
  rcases node with (_ | _ | _ | _ | _) | _ | _ <;> simp at hwalk htaken ⊢

/-- A file is made only in a directory, and where nothing stands. -/
theorem create_eq_ok_iff {text : String} :
    t.create ⟨p ++ [n], false⟩ text = .ok u ↔
      t.Leads p ∧ t.find? (p ++ [n]) = none ∧ u = t.set (p ++ [n]) (.file text) := by
  by_cases hleads : t.Leads p
  · rw [create_child hleads]
    split_ifs with hfree
    · simp [hleads, hfree, eq_comm]
    · simp [hfree]
  · have hwalk : t.walk [] p ≠ .ok .directory := fun h => hleads (walk_eq_directory_iff.mp h)
    simp only [hleads, false_and, iff_false, create, reach, walk_append_single, make,
      List.dropLast_concat]
    generalize t.walk [] p = node at hwalk ⊢
    rcases node with (_ | _ | _ | _ | _) | _ | _ <;> simp at hwalk ⊢

/-- A file is read only where it stands in a directory. -/
theorem read_eq_ok_iff {text : String} :
    t.read ⟨p ++ [n], false⟩ = .ok text ↔ t.Leads p ∧ t.find? (p ++ [n]) = some (.file text) := by
  by_cases hleads : t.Leads p
  · rw [FileTree.read, reach_child hleads]
    rcases t.find? (p ++ [n]) with _ | _ | _ <;> simp [hleads]
  · have hwalk : t.walk [] p ≠ .ok .directory := fun h => hleads (walk_eq_directory_iff.mp h)
    simp only [hleads, false_and, iff_false, FileTree.read, reach, walk_append_single]
    generalize t.walk [] p = node at hwalk ⊢
    rcases node with _ | _ | _ <;> simp at hwalk ⊢

theorem read_of_not_leads (h : t.Passable p) (hleads : ¬t.Leads p) :
    t.read ⟨p ++ [n], false⟩ = .error .missing := by
  rw [FileTree.read, reach, walk_append_single, walk_of_not_leads h hleads]

/-! ### Changes in one place -/

/-- Two trees that differ at the end of some steps and below it at most. -/
def SameOutside (p : List String) (t u : FileTree) : Prop :=
  ∀ q, ¬p <+: q → u.find? q = t.find? q

theorem SameOutside.refl (p : List String) (t : FileTree) : SameOutside p t t :=
  fun _ _ => rfl

theorem SameOutside.trans {v : FileTree} (h : SameOutside p t u) (h' : SameOutside p u v) :
    SameOutside p t v :=
  fun q hq => (h' q hq).trans (h q hq)

theorem SameOutside.of_ne (h : ∀ q ≠ p, u.find? q = t.find? q) : SameOutside p t u :=
  fun q hq => h q fun e => hq (e ▸ List.prefix_refl q)

theorem SameOutside.mono {q : List String} (h : SameOutside q t u) (hp : p <+: q) : SameOutside p t u :=
  fun r hr => h r fun hq => hr (hp.trans hq)

theorem sameOutside_makeDirs (hp : t.Leads p) {open? : Bool}
    (h : t.makeDirs ⟨p ++ [n], open?⟩ = .ok u) : SameOutside (p ++ [n]) t u := by
  rcases makeDirs_cases t (p ++ [n]) open? with ⟨-, u', hmake, hleads, hsame⟩ | ⟨-, e, hfail⟩
  · obtain rfl : u' = u := Except.ok.inj (hmake.symm.trans h)
    intro q hq
    by_cases habove : q <+: p ++ [n]
    · rcases List.prefix_concat_iff.mp habove with rfl | hthere
      · exact absurd (List.prefix_refl _) hq
      · rw [hleads q habove, hp q hthere]
    · exact hsame q habove
  · cases hfail.symm.trans h

theorem sameOutside_set (node : FileNode) : SameOutside p t (t.set p node) :=
  .of_ne fun _ hq => find?_set_of_ne t node hq

theorem sameOutside_erase : SameOutside p t (t.erase p) :=
  .of_ne fun _ hq => find?_erase_of_ne t hq

theorem not_prefix_of_ne {m : String} {q : List String} (hne : n ≠ m) (hq : q <+: p ++ m :: rest) :
    ¬p ++ [n] <+: q := by
  intro h
  have hcons := (List.prefix_append_right_inj p).mp (h.trans hq)
  exact hne (List.cons_prefix_cons.mp hcons).1

namespace SameOutside

variable {m : String} (h : SameOutside (p ++ [n]) t u)
include h

theorem leads (hp : t.Leads p) : u.Leads p :=
  fun q hq => (h q (not_beyond hq)).trans (hp q hq)

theorem find? (hne : n ≠ m) (rest : List String) :
    u.find? (p ++ m :: rest) = t.find? (p ++ m :: rest) :=
  h _ (not_prefix_of_ne hne (List.prefix_refl _))

theorem passable (hne : n ≠ m) (hm : t.Passable (p ++ [m])) : u.Passable (p ++ [m]) :=
  fun q hq text => h q (not_prefix_of_ne hne hq) ▸ hm q hq text

theorem read (hne : n ≠ m) (rest : List String) (open? : Bool) :
    u.read ⟨p ++ m :: rest, open?⟩ = t.read ⟨p ++ m :: rest, open?⟩ := by
  rw [FileTree.read, FileTree.read, reach, reach,
    walk_congr fun q hq => h q (not_prefix_of_ne hne hq)]

end SameOutside

/-! ### Files in a directory that may have to be made -/

structure Ready (t : FileTree) (p : List String) (n : String) : Prop where
  passable : t.Passable p
  free : t.find? (p ++ [n]) ≠ some .directory

theorem Ready.of_sameOutside {m : String} (h : SameOutside (p ++ [n]) t u) (hne : n ≠ m)
    {name : String} (ready : t.Ready (p ++ [m]) name) : u.Ready (p ++ [m]) name := by
  refine ⟨h.passable hne ready.passable, ?_⟩
  have hfree := ready.free
  rw [List.append_assoc] at hfree ⊢
  rw [show p ++ ([m] ++ [name]) = p ++ m :: [name] from rfl, h.find? hne] at *
  exact hfree

theorem Ready.read (h : t.Ready p n) :
    (∃ text, t.read ⟨p ++ [n], false⟩ = .ok text) ∨ t.read ⟨p ++ [n], false⟩ = .error .missing := by
  by_cases hp : t.Leads p
  · rw [FileTree.read, reach_child hp]
    rcases hn : t.find? (p ++ [n]) with _ | text | _
    · exact Or.inr rfl
    · exact Or.inl ⟨text, rfl⟩
    · exact absurd hn h.free
  · exact Or.inr (read_of_not_leads h.passable hp)

/-- Making the directory and then changing the file. -/
theorem Ready.modify {name : String} (hp : t.Leads p) (h : t.Ready (p ++ [n]) name)
    (change : String → String) :
    ∃ u v old, t.makeDirs ⟨p ++ [n], false⟩ = .ok u ∧
      u.modify ⟨p ++ [n] ++ [name], false⟩ change = .ok v ∧ SameOutside (p ++ [n]) t v ∧
      v.Leads (p ++ [n]) ∧ v.find? (p ++ [n] ++ [name]) = some (.file (change old)) := by
  have hdir : ∀ text, t.find? (p ++ [n]) ≠ some (.file text) := h.passable _ (List.prefix_refl _)
  obtain ⟨u, hmake, hleads, hsame⟩ := makeDirs_child hp hdir false
  have hfree : u.find? (p ++ [n] ++ [name]) ≠ some .directory := by
    rw [hsame _ (by simp)]
    exact h.free
  obtain ⟨old, hmodify⟩ := modify_child hleads hfree change
  refine ⟨u, _, old, hmake, hmodify, ?_, ?_, find?_set_self u _ (by simp)⟩
  · intro q hq
    have hne : q ≠ p ++ [n] ++ [name] := fun e => hq (e ▸ List.prefix_append _ _)
    rw [find?_set_of_ne u _ hne, hsame q fun e => hq (e ▸ List.prefix_refl q)]
  · exact (sameOutside_set _).leads hleads

end Subscription.FileTree
