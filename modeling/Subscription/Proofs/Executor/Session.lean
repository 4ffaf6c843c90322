import Subscription.Proofs.Executor.Step

/-!
Sessions: one requested name after the other. A turn of a requested name is a change that starts from
it, with its outcome recorded at the end. Between the steps of the turns only the records of a session
change, so what steps preserve holds for whole sessions, wherever they break off.
-/

namespace Subscription

def Partition.concluded (b : Partition) (action : ServiceAction) (t : Tally) : Tally :=
  if b.unknown.isEmpty then t else t.addError (.ofSystem (.unknownServices action.name b.unknown))

@[simp] theorem Partition.outcomes_concluded (b : Partition) (action : ServiceAction) (t : Tally) :
    (b.concluded action t).outcomes = t.outcomes := by
  unfold concluded
  split <;> rfl

namespace Executor

variable {x : Setting} {action : ServiceAction} {scope scope' : Text → Prop} {p q r : Progress}

/-! ### Turns -/

def Progress.forget (p : Progress) (name : Text) : Progress :=
  { p with handlerFailed := p.handlerFailed.filter (· ≠ name) }

/-- How the turn of a requested name goes. It fails only when the name has not been dealt with on
behalf of an earlier one, and then leaves the service itself as it was. -/
inductive Turn (x : Setting) (action : ServiceAction) (name : Text) (p : Progress) :
    Except Fault Unit × Progress → Prop
  | succeeded {q : Progress}
      (steps : Steps x action (Catalog.LeadsTo (x.catalog.before action) name) name
        (p.forget name) q)
      (done : pending action q.enabled name = false) (changed : name ∈ q.changed) :
      Turn x action name p (.ok (), { q with tally := q.tally.succeed name })
  | failed {q : Progress} {message code : Text}
      (steps : Steps x action (Catalog.LeadsTo (x.catalog.before action) name) name
        (p.forget name) q)
      (spared : pending action q.enabled name = pending action p.enabled name)
      (fresh : name ∈ p.changed → pending action p.enabled name = true) :
      Turn x action name p
        (.ok (), { q with tally := q.tally.fail name ⟨message, code, some name, .service⟩ })
  | raised {q : Progress} {f : Fault}
      (steps : Steps x action (Catalog.LeadsTo (x.catalog.before action) name) name
        (p.forget name) q)
      (h : x.handler.Raises f) : Turn x action name p (.error f, q)

def recorded (name : Text) :
    Except Fault (Option Entry) × Progress → Except Fault Unit × Progress
  | (.ok none, q) => (.ok (), { q with tally := q.tally.succeed name })
  | (.ok (some e), q) => (.ok (), { q with tally := q.tally.fail name e })
  | (.error f, q) => (.error f, q)

theorem exec_recorded (run : Run (Option Entry)) (name : Text) (p : Progress) :
    exec (do
      match ← run with
      | none => record (·.succeed name)
      | some e => record (·.fail name e)) p = recorded name (exec run p) := by
  rw [exec_bind]
  rcases exec run p with ⟨_ | _ | _, q⟩ <;> rfl

theorem exec_change {name : Text} {s : Service} (hs : x.catalog.find? name = some s) (p : Progress) :
    exec (change x action name) p =
      if name ∈ p.changed ∧ pending action p.enabled name = false then
        (.ok (), { p.forget name with tally := p.tally.succeed name })
      else
        recorded name (exec (changeService x action (depthBound x (p.forget name)) s name)
          (p.forget name)) := by
  have hcond : (decide (name ∈ p.changed) &&
        decide (name ∈ p.enabled) == decide (action = .enable)) = true ↔
      name ∈ p.changed ∧ pending action p.enabled name = false := by
    cases action <;> simp [pending]
  simp only [change, exec_bind, exec_modify, exec_get, exec_ite, exec_record]
  by_cases h : name ∈ p.changed ∧ pending action p.enabled name = false
  · rw [if_pos h, if_pos (hcond.mpr h)]
    rfl
  · rw [if_neg h, if_neg fun hc => h (hcond.mp hc)]
    simp only [exec_definition hs]
    cases action with
    | enable => exact exec_recorded (enableService x _ s name) name (p.forget name)
    | disable => exact exec_recorded (disableService x _ s name) name (p.forget name)

theorem height_lt_depthBound (x : Setting) (action : ServiceAction) (n : Text) (p : Progress) :
    x.catalog.height action n < depthBound x p := by
  have hheight := x.catalog.height_le action n
  have hle := Nat.le_mul_of_pos_right (x.catalog.services.length + 1)
    (show 0 < x.catalog.services.length + 1 + p.enabled.length by omega)
  show _ < (x.catalog.services.length + 1) * _
  omega

/-- Every turn of a name of the catalog goes one of these ways. -/
theorem turn_change (wf : x.catalog.WellFormed) {name : Text} (known : x.catalog.has name)
    (hp : p.enabled.Nodup) : Turn x action name p (exec (change x action name) p) := by
  obtain ⟨s, hs⟩ := Catalog.has_iff.mp known
  rw [exec_change hs]
  split
  · next h => exact .succeeded .refl h.2 h.1
  · next h =>
    obtain rfl := Catalog.name_of_find? hs
    have hstart := @pending_of_changeService x action s.name (p.forget s.name) s hs
      (depthBound x (p.forget s.name))
    obtain ⟨⟨hsteps, hends⟩, hspared⟩ := @changes_changeService x action s.name wf
      (depthBound x (p.forget s.name)) s (p.forget s.name) hs
      (height_lt_depthBound x action s.name _) hp
    rcases hr : exec (changeService x action (depthBound x (p.forget s.name)) s s.name)
      (p.forget s.name) with ⟨result, q⟩
    rw [hr] at hstart hsteps hends hspared
    rcases hends with ⟨rfl, hq⟩ | hbroken
    · have hdone := hq s.name List.mem_cons_self
      exact .succeeded hsteps hdone (hsteps.mem_changed hp (hstart rfl) hdone)
    · cases hbroken with
      | failed message code =>
        refine .failed hsteps (hspared (by simp)) fun hchanged => ?_
        by_contra hne
        exact h ⟨hchanged, by simpa using hne⟩
      | raised hraise => exact .raised hsteps hraise

/-! ### Whole sessions -/

theorem exec_changeAll_single (x : Setting) (action : ServiceAction) (n : Text) (p : Progress) :
    exec (changeAll x action [n]) p = exec (change x action n) p := by
  rw [changeAll, exec_bind]
  rcases exec (change x action n) p with ⟨_ | _, q⟩ <;> rfl

theorem exec_runBatch (x : Setting) (action : ServiceAction) (b : Partition) (p : Progress) :
    exec (runBatch x action b) p =
      match exec (changeAll x action b.known) p with
      | (.ok _, q) => (.ok (), { q with tally := b.concluded action q.tally })
      | (.error f, q) => (.error f, q) := by
  rw [runBatch, exec_bind]
  rcases exec (changeAll x action b.known) p with ⟨f | u, q⟩
  · rfl
  · cases hunknown : b.unknown <;> simp [Partition.concluded, hunknown]

/-- One move of a session: a step of a change, or a record of it. -/
inductive Move (x : Setting) (action : ServiceAction) : Progress → Progress → Prop
  | step {scope : Text → Prop} {who : Text} {p q : Progress} (h : Step x action scope who p q) :
      Move x action p q
  | noted {p q : Progress} (calls : q.calls = p.calls) (enabled : q.enabled = p.enabled)
      (changed : q.changed = p.changed) : Move x action p q

abbrev Moves (x : Setting) (action : ServiceAction) : Progress → Progress → Prop :=
  Relation.ReflTransGen (Move x action)

theorem Moves.of_steps {who : Text} (h : Steps x action scope who p q) : Moves x action p q :=
  Relation.ReflTransGen.mono (fun _ _ => .step) _ _ h

theorem Moves.nodup (h : Moves x action p q) (hp : p.enabled.Nodup) : q.enabled.Nodup := by
  induction h with
  | refl => exact hp
  | tail _ hmove ih =>
    cases hmove with
    | step hstep => exact hstep.nodup ih
    | noted _ enabled _ =>
      rw [enabled]
      exact ih

/-- A session that disables takes names out of the list and leaves the others in their order. -/
theorem Moves.enabled_eq_filter (h : Moves x .disable p q) (hp : p.enabled.Nodup) :
    q.enabled = p.enabled.filter (· ∈ q.enabled) := by
  induction h with
  | refl => exact (List.filter_eq_self.mpr fun n hn => by simpa using hn).symm
  | tail hmoves hmove ih =>
    cases hmove with
    | step hstep => exact filter_mem_trans ih (hstep.enabled_eq_filter (Moves.nodup hmoves hp))
    | noted _ enabled _ =>
      rw [enabled]
      exact ih

theorem Turn.moves {name : Text} {result : Except Fault Unit × Progress}
    (h : Turn x action name p result) : Moves x action p result.2 := by
  have hforget : Move x action p (p.forget name) := .noted rfl rfl rfl
  cases h with
  | succeeded steps => exact ((Moves.of_steps steps).head hforget).tail (.noted rfl rfl rfl)
  | failed steps => exact ((Moves.of_steps steps).head hforget).tail (.noted rfl rfl rfl)
  | raised steps => exact (Moves.of_steps steps).head hforget

theorem moves_bind {first : Run Unit} {second : Unit → Run Unit}
    (hfirst : Moves x action p (exec first p).2)
    (hsecond : ∀ q, Moves x action p q → Moves x action q (exec (second ()) q).2) :
    Moves x action p (exec (first >>= second) p).2 := by
  rw [exec_bind]
  rcases hr : exec first p with ⟨_ | _, q⟩
  · rw [hr] at hfirst
    exact hfirst
  · rw [hr] at hfirst
    exact hfirst.trans (hsecond q hfirst)

theorem moves_sequence {run : List Text → Run Unit} (step : Text → Run Unit)
    {names : List Text} (hnil : run [] = pure ())
    (hcons : ∀ n ns p, exec (run (n :: ns)) p = exec (do step n; run ns) p)
    (hone : ∀ n ∈ names, ∀ p, p.enabled.Nodup → Moves x action p (exec (step n) p).2)
    (hp : p.enabled.Nodup) : Moves x action p (exec (run names) p).2 := by
  induction names generalizing p with
  | nil =>
    rw [hnil]
    exact .refl
  | cons n ns ih =>
    rw [hcons]
    exact moves_bind (hone n List.mem_cons_self p hp) fun q hq =>
      ih (fun m hm => hone m (List.mem_cons_of_mem n hm)) (hq.nodup hp)

theorem moves_changeAll (wf : x.catalog.WellFormed) {names : List Text}
    (known : ∀ n ∈ names, x.catalog.has n) (hp : p.enabled.Nodup) :
    Moves x action p (exec (changeAll x action names) p).2 :=
  moves_sequence (change x action) rfl (fun _ _ _ => rfl)
    (fun n hn _ hq => (turn_change wf (known n hn) hq).moves) hp

theorem moves_runBatch (wf : x.catalog.WellFormed) {names : Partition}
    (known : ∀ n ∈ names.known, x.catalog.has n) (hp : p.enabled.Nodup) :
    Moves x action p (exec (runBatch x action names) p).2 := by
  refine moves_bind (moves_changeAll wf known hp) fun q _ => ?_
  split
  · exact .single (.noted rfl rfl rfl)
  · exact .refl

theorem has_of_mem_defaults {x : Setting} {n : Text}
    (hn : n ∈ x.catalog.enableOrder (x.catalog.defaults.filter fun n =>
      decide (n ∈ x.entitlements) && x.catalog.isAvailable n x.series)) : x.catalog.has n := by
  have hdefault := (List.mem_filter.mp (Catalog.mem_sortBy.mp hn)).1
  obtain ⟨s, hs, rfl⟩ := List.mem_map.mp hdefault
  exact Catalog.has_of_find? (Catalog.find?_eq_some_iff.mpr ⟨(List.mem_filter.mp hs).1, rfl⟩)

theorem moves_enableDefaults (wf : x.catalog.WellFormed) (hp : p.enabled.Nodup) :
    Moves x .enable p (exec (enableDefaults x) p).2 :=
  moves_changeAll wf (fun _ hn => has_of_mem_defaults hn) hp

def enableUnlessSettled (settled : List Text) (x : Setting) (n : Text) : Run Unit :=
  if n ∈ settled then record (·.skip n) else change x .enable n

theorem exec_enableUnsettled (settled : List Text) (x : Setting) (n : Text) (ns : List Text)
    (p : Progress) :
    exec (AutoAttach.enableUnsettled settled x (n :: ns)) p =
      exec (do enableUnlessSettled settled x n; AutoAttach.enableUnsettled settled x ns) p := by
  rw [AutoAttach.enableUnsettled, enableUnlessSettled]
  split <;> rfl

theorem moves_enableUnsettled (wf : x.catalog.WellFormed) {settled names : List Text}
    (known : ∀ n ∈ names, x.catalog.has n) (hp : p.enabled.Nodup) :
    Moves x .enable p (exec (AutoAttach.enableUnsettled settled x names) p).2 := by
  refine moves_sequence (enableUnlessSettled settled x) rfl
    (exec_enableUnsettled settled x) (fun n hn q hq => ?_) hp
  rw [enableUnlessSettled, exec_ite]
  split
  · exact .single (.noted rfl rfl rfl)
  · exact (turn_change wf (known n hn) hq).moves

def revoke (x : Setting) (n : Text) : Run Unit := do
  let p ← get
  match x.catalog.find? n, decide (n ∈ p.enabled) with
  | some s, true =>
    record (·.addWarning (.ofService n (.noLongerEntitled s.title)))
    change x .disable n
  | _, _ => pure ()

theorem exec_revokeAll (x : Setting) (n : Text) (ns : List Text) (p : Progress) :
    exec (revokeAll x (n :: ns)) p = exec (do revoke x n; revokeAll x ns) p := by
  simp only [revokeAll, revoke, exec_bind, exec_get]
  split <;> simp [exec_bind, *]

theorem moves_revokeAll (wf : x.catalog.WellFormed) {names : List Text}
    (known : ∀ n ∈ names, x.catalog.has n) (hp : p.enabled.Nodup) :
    Moves x .disable p (exec (revokeAll x names) p).2 := by
  refine moves_sequence (revoke x) rfl (exec_revokeAll x) (fun n hn q hq => ?_) hp
  simp only [revoke, exec_bind, exec_get]
  split
  · refine moves_bind (.single (.noted rfl rfl rfl)) fun r hr => ?_
    exact (turn_change wf (known n hn) (hr.nodup hq)).moves
  · exact .refl

end Executor

end Subscription
