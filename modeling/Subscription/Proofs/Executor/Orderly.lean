import Subscription.Proofs.Executor.Cascade
import Subscription.Proofs.Executor.Replies

/-!
Sessions in which nothing is in the way. When each name comes after the pending ones that have to be
changed before it, and nothing rules one of them out, every turn finds its service ready: it is one call
to the handler, and nothing is changed along. So with a handler that obeys the session makes one call for
each name in turn, and has nothing to add to what the handler says.
-/

namespace Subscription.Executor

variable {x : Setting} {action : ServiceAction} {who : Text} {names names' : List Text}
  {p q r : Progress} {new more : List Call}

/-- Names that are due: each is pending and nothing rules it out, none is there twice, and the pending
names that go before one of them stand before it. -/
structure Due (x : Setting) (action : ServiceAction) (enabled names : List Text) : Prop where
  nodup : names.Nodup
  wanted : ∀ n ∈ names, ∃ s, x.catalog.find? n = some s ∧ x.obstacle? action s = none ∧
    pending action enabled n = true
  inTurn : ∀ l₁ n l₂, names = l₁ ++ n :: l₂ →
    ∀ m ∈ x.catalog.before action n, pending action enabled m = true → m ∈ l₁

/-- What a session has made of names that were due: one call for each, in their order, after which none
of them is pending, each has succeeded, and only the handler's notices have been added. -/
structure Orderly (x : Setting) (action : ServiceAction) (names : List Text) (new : List Call)
    (p q : Progress) : Prop where
  calls : q.calls = p.calls ++ new
  made : List.Forall₂ (fun n call => ∃ s, x.catalog.find? n = some s ∧ call = x.call action s) names new
  pending : ∀ n, pending action q.enabled n = true ↔
    pending action p.enabled n = true ∧ n ∉ names
  outcomes : q.tally.outcomes = p.tally.outcomes ++ names.map fun n => (n, .success)
  errors : q.tally.errors = p.tally.errors
  warnings : q.tally.warnings = p.tally.warnings ++ x.handler.notices p.calls new

namespace Due

variable {enabled enabled' : List Text} {n : Text}

theorem ready (h : Due x action enabled (n :: names)) :
    ∃ s, x.catalog.find? n = some s ∧ Ready x action s enabled := by
  obtain ⟨s, hs, hfree, hpend⟩ := h.wanted n List.mem_cons_self
  obtain rfl := Catalog.name_of_find? hs
  refine ⟨s, hs, hs, refusal?_eq_none_iff.mpr ⟨hfree, hpend⟩, fun m hm => ?_⟩
  by_contra hne
  exact List.not_mem_nil (h.inTurn [] s.name names rfl m hm (by simpa using hne))

/-- Once the first of them has been changed, the others are due. -/
theorem tail (h : Due x action enabled (n :: names))
    (hpend : ∀ m, pending action enabled' m = true ↔ pending action enabled m = true ∧ m ≠ n) :
    Due x action enabled' names where
  nodup := (List.nodup_cons.mp h.nodup).2
  wanted m hm := by
    obtain ⟨s, hs, hfree, hp⟩ := h.wanted m (List.mem_cons_of_mem n hm)
    refine ⟨s, hs, hfree, (hpend m).mpr ⟨hp, ?_⟩⟩
    rintro rfl
    exact (List.nodup_cons.mp h.nodup).1 hm
  inTurn l₁ k l₂ hsplit m hm hp := by
    obtain ⟨hp, hne⟩ := (hpend m).mp hp
    have hmem := h.inTurn (n :: l₁) k l₂ (by rw [hsplit, List.cons_append]) m hm hp
    exact (List.mem_cons.mp hmem).resolve_left hne

end Due

theorem orderly_nil (p : Progress) : Orderly x action [] [] p p where
  calls := (List.append_nil _).symm
  made := .nil
  pending := by simp
  outcomes := (List.append_nil _).symm
  errors := rfl
  warnings := (List.append_nil _).symm

theorem Orderly.trans (h : Orderly x action names new p q) (h' : Orderly x action names' more q r) :
    Orderly x action (names ++ names') (new ++ more) p r where
  calls := by rw [h'.calls, h.calls, List.append_assoc]
  made := List.rel_append h.made h'.made
  pending n := by rw [h'.pending, h.pending, List.mem_append, not_or, and_assoc]
  outcomes := by rw [h'.outcomes, h.outcomes, List.map_append, List.append_assoc]
  errors := h'.errors.trans h.errors
  warnings := by
    rw [h'.warnings, h.warnings, h.calls, Handler.notices_append, List.append_assoc]

theorem exec_changeService_of_ready {s : Service} (ready : Ready x action s p.enabled) {fuel : Nat}
    (hfuel : 0 < fuel) :
    exec (changeService x action fuel s who) p = exec (invoke x action s who) p := by
  have hway : inTheWay x action s p.enabled = [] := by
    refine List.eq_nil_iff_forall_not_mem.mpr fun n hn => ?_
    obtain ⟨hbefore, hpend⟩ := mem_inTheWay.mp hn
    rw [ready.clear n hbefore] at hpend
    cases hpend
  obtain ⟨k, rfl⟩ := Nat.exists_eq_succ_of_ne_zero hfuel.ne'
  rw [exec_changeService ready.known, ready.accepted, hway]
  rfl

/-- The turn of a name that is ready is one call that the handler carries out. -/
theorem orderly_change (obeys : x.handler.Obeys action) {s : Service}
    (ready : Ready x action s p.enabled) (hp : p.enabled.Nodup) :
    ∃ q, exec (change x action s.name) p = (.ok (), q) ∧ q.enabled.Nodup ∧
      Orderly x action [s.name] [x.call action s] p q := by
  obtain ⟨needsReboot, notices, hreply⟩ := obeys (p.forget s.name).calls (x.call action s) rfl
  let done := (p.forget s.name).changedBy (x.call action s) needsReboot notices
  have hexec : exec (change x action s.name) p =
      (.ok (), { done with tally := done.tally.succeed s.name }) := by
    have hpend : ¬(s.name ∈ p.changed ∧ Executor.pending action p.enabled s.name = false) := by
      simp [ready.pending]
    have hready : Ready x action s (p.forget s.name).enabled := ready
    have hfuel := height_lt_depthBound x action s.name (p.forget s.name)
    rw [exec_change ready.known, if_neg hpend, exec_changeService_of_ready hready (by omega),
      exec_invoke, hreply]
    rfl
  refine ⟨_, hexec, nodup_applyChange hp ready.pending, ?_⟩
  have hnotices : x.handler.notices p.calls [x.call action s] =
      (Reply.done needsReboot notices).notices s.name := by
    rw [Handler.notices_singleton, ← hreply]
    rfl
  exact {
    calls := rfl
    made := .cons ⟨s, ready.known, rfl⟩ .nil
    pending := fun n => by
      show Executor.pending action (applyChange action s.name p.enabled) n = true ↔ _
      rw [pending_applyChange hp, Bool.and_eq_true, decide_eq_true_eq, List.mem_singleton]
    outcomes := rfl
    errors := rfl
    warnings := by
      rw [hnotices]
      rfl }

/-- With a handler that obeys, names that are due are changed one by one. -/
theorem orderly_changeAll (obeys : x.handler.Obeys action) (due : Due x action p.enabled names)
    (hp : p.enabled.Nodup) :
    ∃ q new, exec (changeAll x action names) p = (.ok (), q) ∧ Orderly x action names new p q := by
  induction names generalizing p with
  | nil => exact ⟨p, [], rfl, orderly_nil p⟩
  | cons n names ih =>
    obtain ⟨s, hs, ready⟩ := due.ready
    obtain rfl := Catalog.name_of_find? hs
    obtain ⟨r, hchange, hr, hone⟩ := orderly_change obeys ready hp
    obtain ⟨q, new, hrest, horderly⟩ := ih (due.tail fun m => by simpa using hone.pending m) hr
    refine ⟨q, _, ?_, hone.trans horderly⟩
    rw [changeAll, exec_bind, hchange]
    exact hrest

end Subscription.Executor
