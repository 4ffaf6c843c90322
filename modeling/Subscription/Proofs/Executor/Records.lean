import Subscription.Proofs.Executor.Growth

/-!
What a session puts on record, whatever is enabled to begin with, repetitions included. A change warns at
most until it ends; then the turn of a name leaves one outcome and, when it is a failure, one error that
is about this name. So the errors of a session go along with its failures, one by one.
-/

namespace Subscription

def Entry.subject (e : Entry) : Option Text × Scope :=
  (e.service, e.scope)

namespace Tally

structure Gains (t : Tally) (os : List (Text × Outcome)) (u : Tally) : Prop where
  outcomes : u.outcomes = t.outcomes ++ os
  errors : ∃ es, u.errors = t.errors ++ es ∧
    es.map Entry.subject = (os.filter (·.2 = .failure)).map fun o => (some o.1, .service)

variable {t u v : Tally} {os os' : List (Text × Outcome)} {n : Text}

theorem gains_nil (outcomes : u.outcomes = t.outcomes) (errors : u.errors = t.errors) :
    t.Gains [] u :=
  ⟨by simp [outcomes], [], by simp [errors], rfl⟩

theorem Gains.trans (h : t.Gains os u) (h' : u.Gains os' v) : t.Gains (os ++ os') v := by
  obtain ⟨es, hes, hsubjects⟩ := h.errors
  obtain ⟨es', hes', hsubjects'⟩ := h'.errors
  refine ⟨by rw [h'.outcomes, h.outcomes, List.append_assoc], es ++ es', ?_, ?_⟩
  · rw [hes', hes, List.append_assoc]
  · rw [List.map_append, hsubjects, hsubjects', List.filter_append, List.map_append]

theorem gains_succeed (t : Tally) (n : Text) : t.Gains [(n, .success)] (t.succeed n) :=
  ⟨rfl, [], (List.append_nil _).symm, rfl⟩

theorem gains_skip (t : Tally) (n : Text) : t.Gains [(n, .skipped)] (t.skip n) :=
  ⟨rfl, [], (List.append_nil _).symm, rfl⟩

theorem gains_fail (t : Tally) {e : Entry} (he : e.subject = (some n, .service)) :
    t.Gains [(n, .failure)] (t.fail n e) :=
  ⟨rfl, [e], rfl, by simp [he]⟩

/-- What another tally has gained is gained with it, as far as it carries over. -/
theorem Gains.absorb (h : empty.Gains os u) (t : Tally) (withFailures : Bool) :
    t.Gains (os.filter fun o => carriesOver withFailures o.2) (t.absorb u withFailures) := by
  obtain ⟨es, hes, hsubjects⟩ := h.errors
  have houtcomes : u.outcomes = os := h.outcomes
  refine ⟨by rw [Tally.absorb, houtcomes], ?_⟩
  rw [List.filter_filter]
  cases withFailures with
  | false =>
    refine ⟨[], (List.append_nil _).symm, ?_⟩
    have hnone : (os.filter fun o => decide (o.2 = .failure) && carriesOver false o.2) = [] :=
      List.filter_eq_nil_iff.mpr fun o _ => by cases o.2 <;> decide
    rw [hnone]
    rfl
  | true =>
    refine ⟨es, by rw [← List.nil_append es]; exact congrArg (t.errors ++ ·) hes, ?_⟩
    have hall : (os.filter fun o => decide (o.2 = .failure) && carriesOver true o.2) =
        os.filter (·.2 = .failure) :=
      List.filter_congr fun o _ => by cases o.2 <;> rfl
    rw [hsubjects, hall]

/-- Every name that was not passed over has succeeded or failed. -/
theorem perm_outcomes (os : List (Text × Outcome)) :
    ((os.filter (·.2 = .success)).map (·.1) ++ (os.filter (·.2 = .failure)).map (·.1)).Perm
      ((os.filter (·.2 ≠ .skipped)).map (·.1)) := by
  have hsuccess : (os.filter (·.2 ≠ .skipped)).filter (·.2 = .success) =
      os.filter (·.2 = .success) := by
    rw [List.filter_filter]
    exact List.filter_congr fun o _ => by cases o.2 <;> rfl
  have hfailure : (os.filter (·.2 ≠ .skipped)).filter (fun o => !decide (o.2 = .success)) =
      os.filter (·.2 = .failure) := by
    rw [List.filter_filter]
    exact List.filter_congr fun o _ => by cases o.2 <;> rfl
  have hsplit := List.filter_append_perm (fun o => decide (o.2 = Outcome.success))
    (os.filter (·.2 ≠ .skipped))
  rw [hsuccess, hfailure] at hsplit
  rw [← List.map_append]
  exact hsplit.map _

end Tally

namespace Executor

variable {x : Setting} {action : ServiceAction} {who n : Text} {settled names : List Text}
  {p q : Progress}

/-! ### One turn -/

/-- A change has put nothing but warnings on record, and its failure is about the name it was made for. -/
structure Attributed (who : Text) (p : Progress) (result : Except Fault (Option Entry) × Progress) :
    Prop where
  outcomes : result.2.tally.outcomes = p.tally.outcomes
  errors : result.2.tally.errors = p.tally.errors
  failure : ∀ e, result.1 = .ok (some e) → e.subject = (some who, .service)

theorem compositional_attributed : Compositional x action who (Attributed who) where
  nothing p := ⟨rfl, rfl, nofun⟩
  trans h h' := ⟨h'.outcomes.trans h.outcomes, h'.errors.trans h.errors, h'.failure⟩
  refused p m := ⟨rfl, rfl, by rintro e ⟨⟩; rfl⟩
  broken p f := ⟨rfl, rfl, nofun⟩
  warned p title := ⟨rfl, rfl, nofun⟩
  invoked s p := by
    rw [exec_invoke]
    split
    · exact ⟨rfl, rfl, nofun⟩
    · exact ⟨rfl, rfl, by rintro e ⟨⟩; rfl⟩
    · exact ⟨rfl, rfl, nofun⟩

/-- The turn of a name leaves one outcome. -/
theorem gains_change (known : x.catalog.has n) (h : exec (change x action n) p = (.ok (), q)) :
    ∃ o, o ≠ .skipped ∧ p.tally.Gains [(n, o)] q.tally := by
  obtain ⟨s, hs⟩ := Catalog.has_iff.mp known
  rw [exec_change hs] at h
  split at h
  · cases h
    exact ⟨.success, nofun, p.tally.gains_succeed n⟩
  · obtain rfl := Catalog.name_of_find? hs
    have hrule : Compositional x action s.name (Attributed s.name) := compositional_attributed
    have hattributed := hrule.changeService (depthBound x (p.forget s.name)) s hs (p.forget s.name)
    rcases hr : exec (changeService x action (depthBound x (p.forget s.name)) s s.name)
      (p.forget s.name) with ⟨f | _ | e, r⟩
    all_goals rw [hr] at h hattributed
    · cases h
    all_goals
      cases h
      have hnothing : p.tally.Gains [] r.tally := Tally.gains_nil hattributed.outcomes hattributed.errors
    · exact ⟨.success, nofun, hnothing.trans (r.tally.gains_succeed s.name)⟩
    · exact ⟨.failure, nofun, hnothing.trans (r.tally.gains_fail (hattributed.failure e rfl))⟩

/-! ### Sessions -/

/-- A session over some names, in which each name leaves some outcomes. `P` says which outcomes belong to
which names, and goes along with putting names one after the other. -/
theorem gains_sequence {P : List Text → List (Text × Outcome) → Prop} {run : List Text → Run Unit}
    (step : Text → Run Unit) (nil : P [] []) (append : ∀ {ns os ns' os'}, P ns os → P ns' os' →
      P (ns ++ ns') (os ++ os')) (hnil : run [] = pure ())
    (hcons : ∀ n ns p, exec (run (n :: ns)) p = exec (do step n; run ns) p)
    (hone : ∀ n ∈ names, ∀ p q, exec (step n) p = (.ok (), q) →
      ∃ os, P [n] os ∧ p.tally.Gains os q.tally)
    (h : exec (run names) p = (.ok (), q)) : ∃ os, P names os ∧ p.tally.Gains os q.tally := by
  induction names generalizing p with
  | nil =>
    rw [hnil] at h
    cases h
    exact ⟨[], nil, Tally.gains_nil rfl rfl⟩
  | cons n names ih =>
    rw [hcons] at h
    obtain ⟨_, r, hr, hrest⟩ := exec_bind_eq_ok.mp h
    obtain ⟨os, hos, hgains⟩ := hone n List.mem_cons_self p r hr
    obtain ⟨os', hos', hgains'⟩ := ih (fun m hm => hone m (List.mem_cons_of_mem n hm)) hrest
    exact ⟨os ++ os', append hos hos', hgains.trans hgains'⟩

structure Tells (settled names : List Text) (os : List (Text × Outcome)) : Prop where
  names : os.map (·.1) = names
  skipped : ∀ o ∈ os, o.2 = .skipped ↔ o.1 ∈ settled

theorem Tells.append {ns ns' : List Text} {os os' : List (Text × Outcome)} (h : Tells settled ns os)
    (h' : Tells settled ns' os') : Tells settled (ns ++ ns') (os ++ os') where
  names := by rw [List.map_append, h.names, h'.names]
  skipped := List.forall_mem_append.mpr ⟨h.skipped, h'.skipped⟩

theorem tells_single {o : Outcome} (h : o = .skipped ↔ n ∈ settled) : Tells settled [n] [(n, o)] :=
  ⟨rfl, by simpa using h⟩

theorem gains_changeAll (known : ∀ n ∈ names, x.catalog.has n)
    (h : exec (changeAll x action names) p = (.ok (), q)) :
    ∃ os, Tells [] names os ∧ p.tally.Gains os q.tally := by
  refine gains_sequence (change x action) ⟨rfl, nofun⟩ .append rfl (fun _ _ _ => rfl) ?_ h
  intro n hn p q hchange
  obtain ⟨o, ho, hgains⟩ := gains_change (known n hn) hchange
  exact ⟨_, tells_single (by simp [ho]), hgains⟩

theorem gains_enableUnsettled (known : ∀ n ∈ names, x.catalog.has n)
    (h : exec (AutoAttach.enableUnsettled settled x names) p = (.ok (), q)) :
    ∃ os, Tells settled names os ∧ p.tally.Gains os q.tally := by
  refine gains_sequence (enableUnlessSettled settled x) ⟨rfl, nofun⟩ .append rfl
    (exec_enableUnsettled settled x) ?_ h
  intro n hn p q hturn
  rw [enableUnlessSettled, exec_ite] at hturn
  split at hturn
  · next hsettled =>
    cases hturn
    exact ⟨_, tells_single (by simp [hsettled]), p.tally.gains_skip n⟩
  · next hsettled =>
    obtain ⟨o, ho, hgains⟩ := gains_change (known n hn) hturn
    exact ⟨_, tells_single (by simp [ho, hsettled]), hgains⟩

structure TellsSome (names : List Text) (os : List (Text × Outcome)) : Prop where
  names : (os.map (·.1)).Sublist names
  turned : ∀ o ∈ os, o.2 ≠ .skipped

theorem TellsSome.append {ns ns' : List Text} {os os' : List (Text × Outcome)} (h : TellsSome ns os)
    (h' : TellsSome ns' os') : TellsSome (ns ++ ns') (os ++ os') where
  names := by
    rw [List.map_append]
    exact h.names.append h'.names
  turned := List.forall_mem_append.mpr ⟨h.turned, h'.turned⟩

/-- Of the names that are no longer granted, those leave an outcome that are still enabled in their turn. -/
theorem gains_revokeAll (known : ∀ n ∈ names, x.catalog.has n)
    (h : exec (revokeAll x names) p = (.ok (), q)) :
    ∃ os, TellsSome names os ∧ p.tally.Gains os q.tally := by
  refine gains_sequence (revoke x) ⟨.slnil, nofun⟩ .append rfl (exec_revokeAll x) ?_ h
  intro n hn p q hturn
  simp only [revoke, exec_bind, exec_get] at hturn
  split at hturn
  · obtain ⟨_, r, hwarned, hchange⟩ := exec_bind_eq_ok.mp hturn
    cases hwarned
    obtain ⟨o, ho, hgains⟩ := gains_change (known n hn) hchange
    exact ⟨[(n, o)], ⟨List.Sublist.refl [n], by simpa using ho⟩, hgains.outcomes, hgains.errors⟩
  · cases hturn
    exact ⟨[], ⟨List.nil_sublist _, nofun⟩, Tally.gains_nil rfl rfl⟩

end Executor

end Subscription
