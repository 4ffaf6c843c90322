import Mathlib.Data.List.TakeWhile
import Subscription.Proofs.Executor.Orderly

/-!
How far a change gets. With consent to change what is in its way, and a handler that obeys, a change goes
over what stands before a name, in order, and stops at the first pending service that is ruled out. When what
goes before what goes before a name goes before the name itself, every service it comes to is ready, so that
the services it changes can be told from the start: `Setting.stretch`. What has been changed by then is never
ruled out, so no change alters how far another one gets. That is why a session makes the same of its names in
any order: `spread_changeAll` says what it makes of them, and there the order plays no part.
-/

namespace Subscription

theorem takeWhile_append_of_not_forall {keep : Text → Bool} {l₁ : List Text}
    (h : ¬∀ n ∈ l₁, keep n = true) (l₂ : List Text) :
    (l₁ ++ l₂).takeWhile keep = l₁.takeWhile keep := by
  rw [List.takeWhile_append, if_neg fun hlength => h ?_]
  exact List.takeWhile_eq_self_iff.mp ((List.takeWhile_prefix _).eq_of_length hlength)

namespace Catalog

variable {before : Text → List Text} {n m b : Text}

def upTo (before : Text → List Text) (n : Text) : List Text :=
  sortBy before (before n) ++ [n]

theorem mem_upTo : m ∈ upTo before n ↔ m ∈ before n ∨ m = n := by
  simp [upTo]

theorem mem_of_upTo_eq (acyclic : ∀ n, ¬LeadsBelow before n n)
    (transitive : TransitiveBefore before) {l₁ l₂ : List Text}
    (h : upTo before n = l₁ ++ m :: l₂) (hb : b ∈ before m) : b ∈ l₁ := by
  have hm : m ∈ upTo before n := by simp [h]
  have hwanted : b ∈ before n := by
    rcases mem_upTo.mp hm with hm | rfl
    · exact transitive n m hm b hb
    · exact hb
  have hordered : Ordered before (before n) (upTo before n) :=
    (ordered_sortBy acyclic (before n)).snoc fun b _ hb => mem_sortBy.mpr hb
  exact hordered l₁ m l₂ h b hb hwanted

theorem mem_takeWhile_upTo (acyclic : ∀ n, ¬LeadsBelow before n n)
    (transitive : TransitiveBefore before) {keep : Text → Bool}
    (hm : m ∈ (upTo before n).takeWhile keep) (hb : b ∈ before m) :
    b ∈ (upTo before n).takeWhile keep := by
  obtain ⟨rest, hrest⟩ := List.takeWhile_prefix (l := upTo before n) keep
  obtain ⟨l₁, l₂, hl⟩ := List.append_of_mem hm
  have hsplit : upTo before n = l₁ ++ m :: (l₂ ++ rest) := by
    rw [← hrest, hl, List.append_assoc, List.cons_append]
  rw [hl]
  exact List.mem_append_left _ (mem_of_upTo_eq acyclic transitive hsplit hb)

end Catalog

namespace Executor

open Catalog

variable {x : Setting} {action : ServiceAction} {who n m : Text} {names enabled enabled' : List Text}
  {p q : Progress} {s : Service}

def Setting.admits (x : Setting) (action : ServiceAction) (n : Text) : Bool :=
  (x.catalog.find? n).all fun s => (x.obstacle? action s).isNone

theorem admits_iff (hs : x.catalog.find? s.name = some s) :
    x.admits action s.name = true ↔ x.obstacle? action s = none := by
  simp [Setting.admits, hs]

def Setting.passes (x : Setting) (action : ServiceAction) (enabled : List Text) (n : Text) : Bool :=
  !pending action enabled n || x.admits action n

/-- The services that the change of a name gets to: up to the first that it does not get past. A name that is
ruled out itself is refused at once. -/
def Setting.stretch (x : Setting) (action : ServiceAction) (enabled : List Text) (n : Text) : List Text :=
  if x.admits action n then
    (upTo (x.catalog.before action) n).takeWhile (x.passes action enabled)
  else []

/-! ### Stretches -/

theorem admits_of_mem_stretch (h : m ∈ x.stretch action enabled n) : x.admits action n = true := by
  by_contra hne
  rw [Setting.stretch, if_neg hne] at h
  cases h

theorem mem_stretch (admitted : x.admits action n = true) :
    m ∈ x.stretch action enabled n ↔
      m ∈ (upTo (x.catalog.before action) n).takeWhile (x.passes action enabled) := by
  rw [Setting.stretch, if_pos admitted]

theorem passes_of_mem_stretch (h : m ∈ x.stretch action enabled n) :
    x.passes action enabled m = true :=
  List.mem_takeWhile_imp ((mem_stretch (admits_of_mem_stretch h)).mp h)

theorem not_mem_stretch (closed : Closed x.catalog action enabled)
    (hn : pending action enabled n = false) (hm : pending action enabled m = true) :
    m ∉ x.stretch action enabled n := by
  intro h
  have hnot : pending action enabled m = false := by
    rcases mem_upTo.mp ((List.takeWhile_prefix _).subset
      ((mem_stretch (admits_of_mem_stretch h)).mp h)) with hbefore | rfl
    · exact closed n hn m hbefore
    · exact hn
  exact absurd (hm.symm.trans hnot) (by decide)

/-- The pending services of a stretch are those that are not ruled out, up to the first that is. -/
theorem mem_stretch_iff (admitted : x.admits action n = true) (hn : pending action enabled n = true)
    (hm : pending action enabled m = true) :
    m ∈ x.stretch action enabled n ↔
      m ∈ ((sortBy (x.catalog.before action) (x.catalog.before action n)).filter
        (pending action enabled) ++ [n]).takeWhile (x.admits action) := by
  have hfilter : (sortBy (x.catalog.before action) (x.catalog.before action n)).filter
      (pending action enabled) ++ [n] =
        (upTo (x.catalog.before action) n).filter (pending action enabled) := by
    rw [upTo, List.filter_append, List.filter_singleton, hn]
    rfl
  have hstop : ((upTo (x.catalog.before action) n).filter (pending action enabled)).takeWhile
      (x.admits action) = ((upTo (x.catalog.before action) n).takeWhile
        (x.passes action enabled)).filter (pending action enabled) :=
    List.takeWhile_filter ..
  rw [hfilter, hstop, List.mem_filter, and_iff_left hm, mem_stretch admitted]

section Transitive

variable (wf : x.catalog.WellFormed)
  (transitive : TransitiveBefore (x.catalog.before action))
include wf transitive

theorem stretch_closed {a b : Text} (h : a ∈ x.stretch action enabled n)
    (hb : b ∈ x.catalog.before action a) : b ∈ x.stretch action enabled n := by
  have admitted := admits_of_mem_stretch h
  rw [mem_stretch admitted] at h ⊢
  exact mem_takeWhile_upTo (wf.before_acyclic action) transitive h hb

/-- A pending service that some change gets to is one that its own change gets to. -/
theorem mem_stretch_self (h : m ∈ x.stretch action enabled n) (hm : pending action enabled m = true) :
    m ∈ x.stretch action enabled m := by
  have hpasses := passes_of_mem_stretch h
  have admitted : x.admits action m = true := by simpa [Setting.passes, hm] using hpasses
  have hall : (upTo (x.catalog.before action) m).takeWhile (x.passes action enabled) =
      upTo (x.catalog.before action) m := by
    refine List.takeWhile_eq_self_iff.mpr fun b hb => ?_
    rcases mem_upTo.mp hb with hb | rfl
    · exact passes_of_mem_stretch (stretch_closed wf transitive h hb)
    · exact hpasses
  rw [mem_stretch admitted, hall]
  exact mem_upTo.mpr (Or.inr rfl)

end Transitive

/-- Changing services that a change gets past leaves it as far to go for all others. -/
theorem stretch_eq {changes : Text → Prop} (hpasses : ∀ m, changes m → x.passes action enabled m = true)
    (effect : ∀ m, pending action enabled' m = true ↔ pending action enabled m = true ∧ ¬changes m)
    (n : Text) : x.stretch action enabled' n = x.stretch action enabled n := by
  have hsame : x.passes action enabled' = x.passes action enabled := by
    funext m
    by_cases hm : changes m
    · have hnot : pending action enabled' m = false := by
        by_contra hne
        exact ((effect m).mp (by simpa using hne)).2 hm
      rw [hpasses m hm, Setting.passes, hnot]
      rfl
    · have hpend : pending action enabled' m = pending action enabled m :=
        Bool.eq_iff_iff.mpr ((effect m).trans (and_iff_left hm))
      rw [Setting.passes, Setting.passes, hpend]
  rw [Setting.stretch, Setting.stretch, hsame]

/-! ### How a change goes -/

/-- What is left once just some names have been changed. -/
structure Covers (action : ServiceAction) (changes : List Text) (p q : Progress) : Prop where
  nodup : q.enabled.Nodup
  pending : ∀ m, pending action q.enabled m = true ↔
    pending action p.enabled m = true ∧ m ∉ changes

theorem ready_of_covers (wf : x.catalog.WellFormed) (hs : x.catalog.find? s.name = some s)
    (accepted : refusal? x action s p.enabled = none)
    (h : Covers action (inTheWay x action s p.enabled) p q) : Ready x action s q.enabled := by
  obtain ⟨hfree, hpend⟩ := refusal?_eq_none_iff.mp accepted
  refine ⟨hs, refusal?_eq_none_iff.mpr ⟨hfree, ?_⟩, fun m hm => ?_⟩
  · exact (h.pending s.name).mpr ⟨hpend, fun hmem =>
      wf.before_acyclic action s.name (.single (mem_inTheWay.mp hmem).1)⟩
  · by_contra hne
    obtain ⟨hpm, hnot⟩ := (h.pending m).mp (by simpa using hne)
    exact hnot (mem_inTheWay.mpr ⟨hm, hpm⟩)

/-- A run over pending names: it changes them up to the first that is ruled out, and fails if there is one. -/
structure Halts (x : Setting) (action : ServiceAction) (names : List Text) (p : Progress)
    (result : Except Fault (Option Entry) × Progress) : Prop where
  ends : ∃ failure, result.1 = .ok failure ∧
    (failure = none ↔ ∀ n ∈ names, x.admits action n = true)
  covers : Covers action (names.takeWhile (x.admits action)) p result.2

theorem covers_invoke (obeys : x.handler.Obeys action) (ready : Ready x action s p.enabled)
    (hp : p.enabled.Nodup) :
    ∃ q, exec (invoke x action s who) p = (.ok none, q) ∧ Covers action [s.name] p q := by
  obtain ⟨needsReboot, notices, hreply⟩ := obeys p.calls (x.call action s) rfl
  refine ⟨_, by rw [exec_invoke, hreply], nodup_applyChange hp ready.pending, fun m => ?_⟩
  show Executor.pending action (applyChange action s.name p.enabled) m = true ↔ _
  rw [pending_applyChange hp, Bool.and_eq_true, decide_eq_true_eq, List.mem_singleton]

/-- Pending names of which each comes after those that go before it are changed in turn, up to the first that
is ruled out. -/
theorem halts_changeAlong (obeys : x.handler.Obeys action) {fuel : Nat} (hfuel : names ≠ [] → 0 < fuel)
    (known : ∀ n ∈ names, x.catalog.has n) (distinct : names.Nodup)
    (wanted : ∀ n ∈ names, pending action p.enabled n = true)
    (inTurn : ∀ l₁ n l₂, names = l₁ ++ n :: l₂ →
      ∀ m ∈ x.catalog.before action n, pending action p.enabled m = true → m ∈ l₁)
    (hp : p.enabled.Nodup) :
    Halts x action names p (exec (firstFailure (changeAlong x action fuel who) names) p) := by
  refine firstFailure_rule
    (I := fun done q => (∀ n ∈ done, x.admits action n = true) ∧ Covers action done p q)
    ?_ (fun q ⟨hdone, hcovers⟩ => ⟨⟨none, rfl, iff_of_true rfl hdone⟩, ?_⟩)
    ⟨by simp, hp, by simp⟩
  · rintro done n rest hsplit q ⟨hdone, hcovers⟩
    have hn : n ∈ names := by simp [hsplit]
    obtain ⟨k, rfl⟩ := Nat.exists_eq_succ_of_ne_zero (hfuel (List.ne_nil_of_mem hn)).ne'
    obtain ⟨s, hs⟩ := has_iff.mp (known n hn)
    obtain rfl := name_of_find? hs
    have hfresh : s.name ∉ done := by
      rw [hsplit] at distinct
      exact fun hmem => List.disjoint_of_nodup_append distinct hmem List.mem_cons_self
    rw [exec_changeAlong hs]
    set q' : Progress := { q with
      tally := q.tally.addWarning (.ofService who (alongMessage action s.title)) } with hq'
    by_cases hadmits : x.admits action s.name = true
    · have ready : Ready x action s q'.enabled := by
        refine ⟨hs, refusal?_eq_none_iff.mpr ⟨(admits_iff hs).mp hadmits,
          (hcovers.pending s.name).mpr ⟨wanted s.name hn, hfresh⟩⟩, fun m hm => ?_⟩
        by_contra hne
        obtain ⟨hpm, hnot⟩ := (hcovers.pending m).mp (by simpa [hq'] using hne)
        exact hnot (inTurn done s.name rest hsplit m hm hpm)
      obtain ⟨r, hinvoke, hone⟩ := @covers_invoke x action who q' s obeys ready hcovers.nodup
      refine Or.inl ⟨r, by rw [exec_changeService_of_ready ready (Nat.succ_pos k), hinvoke], ?_, hone.nodup,
        fun m => ?_⟩
      · simpa [or_imp, forall_and, hadmits] using hdone
      · rw [hone.pending, hcovers.pending, List.mem_append, not_or, and_assoc]
    · obtain ⟨m, hm⟩ := Option.ne_none_iff_exists'.mp (mt (admits_iff hs).mpr hadmits)
      have hrefusal : refusal? x action s q'.enabled = some m := by rw [refusal?, hm]
      rw [exec_changeService hs, hrefusal]
      have hstop : names.takeWhile (x.admits action) = done := by
        rw [hsplit, List.takeWhile_append_of_pos hdone, List.takeWhile_cons_of_neg hadmits,
          List.append_nil]
      refine Or.inr ⟨by simp, ⟨_, rfl, iff_of_false (by simp) fun hall => hadmits (hall s.name hn)⟩, ?_⟩
      rw [hstop]
      exact ⟨hcovers.nodup, hcovers.pending⟩
  · rw [List.takeWhile_eq_self_iff.mpr hdone]
    exact hcovers

theorem covers_nil (hp : p.enabled.Nodup) (hq : q.enabled = p.enabled)
    {changes : List Text} (h : ∀ m, pending action p.enabled m = true → m ∉ changes) :
    Covers action changes p q where
  nodup := hq ▸ hp
  pending m := by
    rw [hq]
    exact ⟨fun hm => ⟨hm, h m hm⟩, And.left⟩

section Transitive

variable (wf : x.catalog.WellFormed)
  (transitive : TransitiveBefore (x.catalog.before action))
  (obeys : x.handler.Obeys action) (yes : x.assumeYes = true)
include wf transitive obeys

/-- What is in the way of a service is in such an order. -/
theorem halts_inTheWay {fuel : Nat} (hfuel : x.catalog.height action s.name ≤ fuel)
    (hp : p.enabled.Nodup) :
    Halts x action (inTheWay x action s p.enabled) p
      (exec (firstFailure (changeAlong x action fuel who) (inTheWay x action s p.enabled)) p) := by
  refine halts_changeAlong obeys (fun hne => ?_)
    (fun n hn => wf.has_of_mem_before (mem_inTheWay.mp hn).1) (nodup_sortBy _ _)
    (fun n hn => (mem_inTheWay.mp hn).2) (fun l₁ n l₂ hsplit m hm hpm => ?_) hp
  · obtain ⟨n, hn⟩ := List.exists_mem_of_ne_nil _ hne
    have := wf.height_lt (mem_inTheWay.mp hn).1
    omega
  · have hn : n ∈ inTheWay x action s p.enabled := by simp [hsplit]
    have hwanted := transitive s.name n (mem_inTheWay.mp hn).1 m hm
    exact ordered_sortBy (wf.before_acyclic action) _ l₁ n l₂ hsplit m hm
      (List.mem_filter.mpr ⟨hwanted, hpm⟩)

include yes

/-- A change goes over what is in the way of its service and last over the service itself. -/
theorem halts_changeAfter (hs : x.catalog.find? s.name = some s)
    (accepted : refusal? x action s p.enabled = none) {fuel : Nat}
    (hfuel : x.catalog.height action s.name ≤ fuel) (hp : p.enabled.Nodup) :
    Halts x action (inTheWay x action s p.enabled ++ [s.name]) p
      (exec (changeAfter x action fuel s who (inTheWay x action s p.enabled)) p) := by
  have hfree := (refusal?_eq_none_iff.mp accepted).1
  have hloop := @halts_inTheWay x action who p s wf transitive obeys fuel hfuel hp
  rw [exec_changeAfter yes]
  generalize exec (firstFailure (changeAlong x action fuel who) (inTheWay x action s p.enabled)) p =
    result at hloop
  obtain ⟨⟨failure, hfailure, hends⟩, hcovers⟩ := hloop
  obtain ⟨_, q⟩ := result
  cases hfailure
  cases failure with
  | some e =>
    -- The run has stopped at a name that is ruled out, and does not come to the service itself.
    have hnot : ¬∀ n ∈ inTheWay x action s p.enabled, x.admits action n = true := fun hall => by
      cases hends.mpr hall
    refine ⟨⟨some e, rfl, iff_of_false (by simp) fun hall => ?_⟩, ?_⟩
    · exact hnot fun n hn => hall n (List.mem_append_left _ hn)
    · rwa [takeWhile_append_of_not_forall hnot]
  | none =>
    have hall : ∀ n ∈ inTheWay x action s p.enabled ++ [s.name], x.admits action n = true := by
      simpa [or_imp, forall_and, admits_iff hs, hfree] using hends.mp rfl
    rw [List.takeWhile_eq_self_iff.mpr (hends.mp rfl)] at hcovers
    have ready := ready_of_covers wf hs accepted hcovers
    obtain ⟨r, hinvoke, hone⟩ := @covers_invoke x action who q s obeys ready hcovers.nodup
    show Halts x action _ p (exec (invoke x action s who) q)
    rw [hinvoke]
    refine ⟨⟨none, rfl, iff_of_true rfl hall⟩, hone.nodup, fun m => ?_⟩
    rw [hone.pending, hcovers.pending, List.takeWhile_eq_self_iff.mpr hall, List.mem_append, not_or,
      and_assoc]

/-- The change of a service covers the stretch of its name. -/
theorem covers_changeService (hs : x.catalog.find? s.name = some s) {fuel : Nat}
    (hfuel : x.catalog.height action s.name < fuel) (hp : p.enabled.Nodup)
    (closed : Closed x.catalog action p.enabled) :
    ∃ failure q, exec (changeService x action fuel s who) p = (.ok failure, q) ∧
      Covers action (x.stretch action p.enabled s.name) p q := by
  obtain ⟨k, rfl⟩ := Nat.exists_eq_succ_of_ne_zero (Nat.ne_zero_of_lt hfuel)
  rw [exec_changeService hs]
  cases href : refusal? x action s p.enabled with
  | some e =>
    refine ⟨_, p, rfl, covers_nil hp rfl fun m hm hstretch => ?_⟩
    have hfree := (admits_iff hs).mp (admits_of_mem_stretch hstretch)
    by_cases hpend : pending action p.enabled s.name = true
    · rw [refusal?_eq_none_iff.mpr ⟨hfree, hpend⟩] at href
      cases href
    · exact not_mem_stretch closed (by simpa using hpend) hm hstretch
  | none =>
    obtain ⟨hfree, hpend⟩ := refusal?_eq_none_iff.mp href
    have hway : inTheWay x action s p.enabled = (sortBy (x.catalog.before action)
        (x.catalog.before action s.name)).filter (pending action p.enabled) := sortBy_filter closed _
    obtain ⟨⟨failure, hfailure, -⟩, hcovers⟩ :=
      @halts_changeAfter x action who p s wf transitive obeys yes hs href k (Nat.le_of_lt_succ hfuel) hp
    refine ⟨failure, _, Prod.ext hfailure rfl, hcovers.nodup, fun m =>
      (hcovers.pending m).trans (and_congr_right fun hm => ?_)⟩
    rw [mem_stretch_iff ((admits_iff hs).mpr hfree) hpend hm, ← hway]

/-- The turn of a name comes to its end and covers the stretch of the name. -/
theorem covers_change (known : x.catalog.has n) (hp : p.enabled.Nodup)
    (closed : Closed x.catalog action p.enabled) :
    ∃ q, exec (change x action n) p = (.ok (), q) ∧
      Covers action (x.stretch action p.enabled n) p q := by
  obtain ⟨s, hs⟩ := has_iff.mp known
  obtain rfl := name_of_find? hs
  rw [exec_change hs]
  split
  · next h =>
    refine ⟨_, rfl, covers_nil hp ?_ fun m hm => not_mem_stretch closed h.2 hm⟩
    rfl
  · obtain ⟨failure, q, hexec, hcovers⟩ := @covers_changeService x action s.name (p.forget s.name) s wf
      transitive obeys yes hs _ (height_lt_depthBound x action s.name _) hp closed
    rw [hexec]
    cases failure with
    | none => exact ⟨_, rfl, hcovers.nodup, hcovers.pending⟩
    | some e => exact ⟨_, rfl, hcovers.nodup, hcovers.pending⟩

end Transitive

/-! ### Whole sessions -/

/-- How the turn of a name ends, told from the start: with success for a service that is still to be changed and
that its own change gets to. -/
def Setting.fate (x : Setting) (action : ServiceAction) (enabled : List Text) (n : Text) : Outcome :=
  if pending action enabled n = true ∧ n ∈ x.stretch action enabled n then .success else .failure

/-- What a session has made of some names, in terms of the services that were enabled when it began. -/
structure Spread (x : Setting) (action : ServiceAction) (enabled names : List Text) (p : Progress) : Prop where
  nodup : p.enabled.Nodup
  pending : ∀ m, pending action p.enabled m = true ↔
    pending action enabled m = true ∧ ∀ n ∈ names, m ∉ x.stretch action enabled n
  changed : ∀ m, Executor.pending action p.enabled m = false →
    (m ∈ p.changed ↔ Executor.pending action enabled m = true)
  outcomes : p.tally.outcomes = names.map fun n => (n, x.fate action enabled n)

theorem spread_start (nodup : enabled.Nodup) (past : List Call) :
    Spread x action enabled [] (start past enabled) where
  nodup := nodup
  pending := by simp [start]
  changed m hm := iff_of_false List.not_mem_nil fun hpend => absurd (hpend.symm.trans hm) (by decide)
  outcomes := rfl

namespace Spread

theorem effect (h : Spread x action enabled names p) (m : Text) :
    Executor.pending action p.enabled m = true ↔
      Executor.pending action enabled m = true ∧ ¬∃ n ∈ names, m ∈ x.stretch action enabled n := by
  rw [h.pending]
  simp

theorem stretch_eq (h : Spread x action enabled names p) (n : Text) :
    x.stretch action p.enabled n = x.stretch action enabled n :=
  Executor.stretch_eq (fun _ ⟨_, _, hm⟩ => passes_of_mem_stretch hm) h.effect n

theorem closed (h : Spread x action enabled names p) (wf : x.catalog.WellFormed)
    (transitive : TransitiveBefore (x.catalog.before action)) (closed : Closed x.catalog action enabled) :
    Closed x.catalog action p.enabled := by
  have closed : Closed x.catalog action (start [] enabled).enabled := closed
  exact closed.of_effect h.effect fun a ⟨n, hn, ha⟩ b hb =>
    ⟨n, hn, stretch_closed wf transitive ha hb⟩

/-- One more turn goes as told from the start. -/
theorem snoc (h : Spread x action enabled names p) (wf : x.catalog.WellFormed)
    (transitive : TransitiveBefore (x.catalog.before action))
    (turn : Turn x action n p (.ok (), q)) (covers : Covers action (x.stretch action p.enabled n) p q) :
    Spread x action enabled (names ++ [n]) q := by
  have hpending : ∀ m, Executor.pending action q.enabled m = true ↔
      Executor.pending action enabled m = true ∧
        ∀ k ∈ names ++ [n], m ∉ x.stretch action enabled k := fun m => by
    rw [covers.pending, h.pending, h.stretch_eq, and_assoc]
    simp [or_imp, forall_and]
  have hchanged : ∀ m, Executor.pending action q.enabled m = false →
      (m ∈ q.changed ↔ Executor.pending action enabled m = true) := fun m hm => by
    cases hp : Executor.pending action p.enabled m with
    | false =>
      rw [← h.changed m hp]
      refine ⟨fun hmem => ?_, fun hmem => turn.changed_subset hmem⟩
      exact (turn.pending_of_mem_changed h.nodup hmem).resolve_right (by simp [hp])
    | true => exact iff_of_true (turn.leadsTo_of_changed h.nodup hp hm).1 ((h.pending m).mp hp).1
  refine ⟨covers.nodup, hpending, hchanged, ?_⟩
  rw [List.map_append, ← h.outcomes, List.map_singleton, Setting.fate]
  rcases turn.outcome with ⟨houtcomes, -, hdone, hmem⟩ | ⟨houtcomes, -, hspared, hfresh⟩
  · -- The service was pending at the start, so it is in the stretch of some name, and so in its own.
    have hstart := (hchanged n hdone).mp hmem
    have hreached : ∃ k ∈ names ++ [n], n ∈ x.stretch action enabled k := by
      by_contra hne
      have hpend := (hpending n).mpr ⟨hstart, fun k hk hmem => hne ⟨k, hk, hmem⟩⟩
      exact absurd (hpend.symm.trans hdone) (by decide)
    obtain ⟨k, -, hk⟩ := hreached
    rw [houtcomes, if_pos ⟨hstart, mem_stretch_self wf transitive hk hstart⟩]
  · rw [houtcomes, if_neg]
    rintro ⟨hstart, hself⟩
    have hdone : Executor.pending action q.enabled n = false := by
      by_contra hne
      exact ((hpending n).mp (by simpa using hne)).2 n (by simp) hself
    rw [hspared] at hdone
    exact absurd ((hfresh ((h.changed n hdone).mpr hstart)).symm.trans hdone) (by decide)

end Spread

/-- A session comes to its end, and what it makes of its names can be told from the start. -/
theorem spread_changeAll (wf : x.catalog.WellFormed)
    (transitive : TransitiveBefore (x.catalog.before action))
    (obeys : x.handler.Obeys action) (yes : x.assumeYes = true)
    (closed : Closed x.catalog action enabled) {done : List Text}
    (known : ∀ n ∈ names, x.catalog.has n) (h : Spread x action enabled done p) :
    ∃ q, exec (changeAll x action names) p = (.ok (), q) ∧ Spread x action enabled (done ++ names) q := by
  induction names generalizing done p with
  | nil => exact ⟨p, rfl, by rwa [List.append_nil]⟩
  | cons n names ih =>
    have hknown := known n List.mem_cons_self
    obtain ⟨r, hexec, hcovers⟩ :=
      covers_change wf transitive obeys yes hknown h.nodup (h.closed wf transitive closed)
    have hturn : Turn x action n p (exec (change x action n) p) := turn_change wf hknown h.nodup
    rw [hexec] at hturn
    obtain ⟨q, hrest, hspread⟩ := ih (fun m hm => known m (List.mem_cons_of_mem n hm))
      (h.snoc wf transitive hturn hcovers)
    refine ⟨q, ?_, by rwa [List.append_assoc] at hspread⟩
    rw [changeAll, exec_bind, hexec]
    exact hrest

end Executor

end Subscription
