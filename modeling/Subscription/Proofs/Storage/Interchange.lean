import Mathlib.Logic.Function.Basic
import Subscription.Proofs.Manager.RoundTrip
import Subscription.Proofs.Storage.Guard

/-!
Storages that behave alike. Whoever reads and writes values and adds lines to logs cannot tell a storage in
memory from one on files: what is read is always what was written to the name last, or nothing before that.
The storage on files needs a home in which nothing stands in the place of its values, and logs that do not
lead there. A log that does lead there can change a value.
-/

namespace Subscription

/-! ### What is asked of a storage -/

inductive Access where
  | read (name : String)
  | write (name : String) (value : Json)
  | append (log line : String)

namespace Access

variable {m : Type → Type} [Monad m] {accesses : List Access} {name : String}

/-- What is seen of an access: the value that is read, if there is one, or that a value has been written. Of
what is added to a log nothing is seen, not even whether that fails. -/
def seen (s : Storage m) : Access → m (List (Except Fault (Option Json)))
  | .read name => return [← (s.read name).run]
  | .write name value => return [(← (s.write name value).run).map fun _ => none]
  | .append log line => do
    let _ ← (s.append log line).run
    return []

def written? (name : String) : Access → Option Json
  | .write other value => if other = name then some value else none
  | _ => none

def lastWritten (accesses : List Access) (name : String) : Option Json :=
  (accesses.filterMap (written? name)).getLast?

/-- What has to be seen of an access after some others: a read gives what is left of the value that was
written last. -/
def due (earlier : List Access) : Access → List (Except Fault (Option Json))
  | .read name => [.ok ((lastWritten earlier name).map Json.settled)]
  | .write _ _ => [.ok none]
  | .append _ _ => []

def dues (earlier : List Access) : List Access → List (Except Fault (Option Json))
  | [] => []
  | a :: as => a.due earlier ++ dues (earlier ++ [a]) as

def isAppend : Access → Bool
  | .append _ _ => true
  | _ => false

@[simp] theorem isAppend_read (name : String) : (read name).isAppend = false := rfl

@[simp] theorem isAppend_write (name : String) (value : Json) : (write name value).isAppend = false := rfl

@[simp] theorem isAppend_append (log line : String) : (append log line).isAppend = true := rfl

theorem lastWritten_append (a : Access) :
    lastWritten (accesses ++ [a]) name = (a.written? name).or (lastWritten accesses name) := by
  rw [lastWritten, lastWritten, List.filterMap_append, List.getLast?_append]
  cases h : a.written? name <;> simp [h]

theorem lastWritten_write (accesses : List Access) (name : String) (value : Json) :
    lastWritten (accesses ++ [.write name value]) =
      Function.update (lastWritten accesses) name (some value) := by
  funext other
  rw [lastWritten_append, written?, Function.update_apply]
  by_cases h : other = name
  · rw [if_pos h, if_pos h.symm, Option.some_or]
  · rw [if_neg h, if_neg (Ne.symm h), Option.none_or]

theorem lastWritten_of_written? {a : Access} (h : ∀ name, a.written? name = none) :
    lastWritten (accesses ++ [a]) = lastWritten accesses := by
  funext name
  rw [lastWritten_append, h, Option.none_or]

end Access

/-- What is seen of some accesses one after the other. One that fails keeps none of the others from being
made. -/
def Storage.play {m : Type → Type} [Monad m] (s : Storage m) :
    List Access → m (List (Except Fault (Option Json)))
  | [] => return []
  | a :: as => return (← a.seen s) ++ (← s.play as)

/-! ### Storages that recall -/

variable {σ : Type}

/-- A storage recalls values from the states on in which it holds them, as long as it is asked for what is
proper. -/
structure Storage.Recalls (s : Storage (StateM σ)) (proper : Access → Prop)
    (holds : (String → Option Json) → σ → Prop) : Prop where
  read : ∀ {values x name}, holds values x → proper (.read name) →
    exec (s.read name) x = (.ok ((values name).map Json.settled), x)
  write : ∀ {values x name v}, holds values x → proper (.write name v) →
    ∃ y, exec (s.write name v) x = (.ok (), y) ∧ holds (Function.update values name (some v)) y
  append : ∀ {values x log line}, holds values x → proper (.append log line) →
    holds values (exec (s.append log line) x).2

namespace Storage.Recalls

variable {s : Storage (StateM σ)} {proper : Access → Prop} {holds : (String → Option Json) → σ → Prop}
  {earlier : List Access} {x : σ}

/-- What is seen of an access is what has to be seen. -/
theorem seen (h : s.Recalls proper holds) (hx : holds (Access.lastWritten earlier) x) {a : Access}
    (ha : proper a) :
    ∃ y, (a.seen s).run x = (a.due earlier, y) ∧ holds (Access.lastWritten (earlier ++ [a])) y := by
  cases a with
  | read name =>
    have hread : (s.read name).run.run x = _ := h.read hx ha
    rw [Access.lastWritten_of_written? fun _ => rfl]
    refine ⟨x, ?_, hx⟩
    rw [Access.seen, StateT.run_bind, hread]
    rfl
  | write name v =>
    obtain ⟨y, hwrite, hy⟩ := h.write hx ha
    have hwrite : (s.write name v).run.run x = _ := hwrite
    rw [Access.lastWritten_write]
    refine ⟨y, ?_, hy⟩
    rw [Access.seen, StateT.run_bind, hwrite]
    rfl
  | append log line =>
    rw [Access.lastWritten_of_written? fun _ => rfl]
    refine ⟨_, ?_, h.append hx ha⟩
    rw [Access.seen, StateT.run_bind]
    rfl

theorem play (h : s.Recalls proper holds) {accesses : List Access} (haccesses : ∀ a ∈ accesses, proper a)
    (hx : holds (Access.lastWritten earlier) x) :
    ((s.play accesses).run x).1 = Access.dues earlier accesses := by
  induction accesses generalizing earlier x with
  | nil => rfl
  | cons a as ih =>
    obtain ⟨ha, has⟩ := List.forall_mem_cons.mp haccesses
    obtain ⟨y, hseen, hy⟩ := h.seen hx ha
    rw [Storage.play, StateT.run_bind, hseen, Access.dues, ← ih has hy]
    rfl

end Storage.Recalls

/-! ### In memory -/

/-- Whether an access keeps to the place that is meant for it: values are asked for by plain names, and no
log is in the place of the values or below it. -/
def Access.Proper (home : String) : Access → Prop
  | .read name => Path.IsName name
  | .write name _ => Path.IsName name
  | .append log _ => ¬Path.place home "state" <+: (Path.target (Storage.logPath home log)).steps

namespace Machine

open FileTree

variable {home name : String} {m : Machine} {values : String → Option Json}

structure Bare (home : String) (t : FileTree) : Prop where
  passable : t.Passable (Path.fromRoot home)
  free : ∀ q, Path.place home "state" <+: q → t.find? q = none

structure Holds (home : String) (values : String → Option Json) (m : Machine) : Prop where
  passable : m.tree.Passable (Path.place home "state")
  found : ∀ {name}, Path.IsName name →
    m.tree.find? (Path.place home "state" ++ [name]) = (values name).map fun v => .file v.indented
  leads : ∀ {name}, values name ≠ none → m.tree.Leads (Path.place home "state")

theorem Bare.holds (h : Bare home m.tree) : Holds home (fun _ => none) m where
  passable q hq text := by
    rcases List.prefix_concat_iff.mp hq with hplace | hq
    · rw [h.free q (hplace ▸ List.prefix_refl _)]
      nofun
    · exact h.passable q hq text
  found _ := h.free _ (List.prefix_append _ _)
  leads hvalue := absurd rfl hvalue

/-- What leaves the place of the values as it was, and the home where it was, leaves the values. -/
theorem Holds.of_same (h : Holds home values m) {u : FileTree} (hhome : u.Leads (Path.fromRoot home))
    (hsame : ∀ q, Path.place home "state" <+: q → u.find? q = m.tree.find? q) :
    Holds home values { m with tree := u } where
  passable q hq text := by
    rcases List.prefix_concat_iff.mp hq with hplace | habove
    · show u.find? q ≠ _
      rw [hsame q (hplace ▸ List.prefix_refl _)]
      exact h.passable q hq text
    · exact hhome.passable q habove text
  found hname := (hsame _ (List.prefix_append _ _)).trans (h.found hname)
  leads hvalue := by
    refine leads_append_single.mpr ⟨hhome, (hsame _ (List.prefix_refl _)).trans ?_⟩
    exact (leads_append_single.mp (h.leads hvalue)).2

theorem Holds.read (h : Holds home values m) (hname : Path.IsName name) :
    exec ((storage home).read name) m = (.ok ((values name).map Json.settled), m) := by
  rw [storage, exec_read, Storage.valuePath, target_below isName_state hname]
  have hfound := h.found hname
  by_cases hleads : m.tree.Leads (Path.place home "state")
  · rw [FileTree.read, reach_child hleads, hfound]
    cases values name with
    | none => rfl
    | some v =>
      show (Except.ok (Json.parse v.indented), m) = _
      rw [Json.parse_indented]
      rfl
  · have hnone : values name = none := not_imp_comm.mp h.leads hleads
    rw [read_of_not_leads h.passable hleads, hnone]
    rfl

theorem Holds.write (h : Holds home values m) (hname : Path.IsName name) (v : Json) :
    ∃ m', exec ((storage home).write name v) m = (.ok (), m') ∧
      Holds home (Function.update values name (some v)) m' := by
  rw [exec_write, target_state, Storage.valuePath, target_below isName_state hname]
  rcases makeDirs_cases m.tree (Path.place home "state") false with
    ⟨-, u, hmake, hleads, hsame⟩ | ⟨hblocked, -⟩
  · have hkept {other : String} (hother : Path.IsName other) :
        u.find? (Path.place home "state" ++ [other]) = (values other).map fun v => .file v.indented :=
      (hsame _ (not_beyond (List.prefix_refl _))).trans (h.found hother)
    have hfree : u.find? (Path.place home "state" ++ [name]) ≠ some .directory := by
      rw [hkept hname]
      simp
    obtain ⟨old, hmodify⟩ := modify_child hleads hfree fun _ => v.indented
    have hafter : (u.set (Path.place home "state" ++ [name]) (.file v.indented)).Leads
        (Path.place home "state") := (sameOutside_set _).leads hleads
    simp only [hmake, hmodify]
    refine ⟨_, rfl, hafter.passable, fun {other} hother => ?_, fun _ => hafter⟩
    rw [Function.update_apply]
    split_ifs with hsplit
    · rw [hsplit, find?_set_self u _ (by simp), Option.map_some]
    · rw [find?_set_of_ne u _ (by simpa using hsplit), hkept hother]
  · exact absurd h.passable hblocked

theorem Holds.append (h : Holds home values m) {log : String} (line : String)
    (hlog : (Access.append log line).Proper home) :
    Holds home values (exec ((storage home).append log line) m).2 := by
  rw [Access.Proper] at hlog
  rw [exec_append, Path.target_join isName_logs]
  generalize Path.target (Storage.logPath home log) = target at hlog ⊢
  rcases makeDirs_cases m.tree (Path.place home "logs") false with
    ⟨-, u, hmake, hleads, hsame⟩ | ⟨-, e, hfail⟩
  · have hhome : u.Leads (Path.fromRoot home) := (leads_append_single.mp hleads).1
    have hu : Holds home values { m with tree := u } := by
      refine h.of_same hhome fun q hq => hsame q fun hlogs => ?_
      exact not_prefix_of_ne (by decide) hlogs hq
    simp only [hmake]
    cases hmodify : u.modify target (· ++ (line ++ "\n")) with
    | error e => exact hu
    | ok u' =>
      obtain ⟨hfile, old, rfl⟩ := modify_eq_ok hmodify
      refine hu.of_same (fun q hq => ?_) fun q hq => find?_set_of_ne u _ fun e => hlog (e ▸ hq)
      -- The home is a directory, so it is not what has been changed.
      have hother : q ≠ target.steps := fun e => hfile (e ▸ hhome q hq)
      rw [find?_set_of_ne u _ hother, hhome q hq]
  · simp only [hfail]
    exact h

end Machine

/-! ### One storage for another -/

def Machine.bare : Machine :=
  .ofTree ⟨[(["home"], .directory)]⟩

def Access.mixed : List Access :=
  [.read "a", .write "a" (.array [.number (.infinite true), .number (.finite ⟨true, 0, 0⟩ (by decide +kernel))]),
    .append "operations.jsonl" "x", .append "../../notes" "y", .write "b" (.string "t"),
    .write "b" (.bool true), .read "a", .read "b"]

end Subscription
