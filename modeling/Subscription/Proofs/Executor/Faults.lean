import Subscription.Proofs.Executor.Session

/-!
How runs of the executor break off. In a catalog that is well formed every name that is looked up is
there, and the recursion of a change ends because it goes down; so the only faults are those with which
the handler itself breaks down, whatever is enabled to begin with.
-/

namespace Subscription.Executor

variable {x : Setting} {action : ServiceAction} {who : Text} {names : List Text}

theorem throws_invoke (s : Service) : Throws (invoke x action s who) x.handler.Raises := by
  intro p f q hexec
  rw [exec_invoke] at hexec
  split at hexec
  · next text hraised =>
    cases hexec
    exact ⟨_, _, text, hraised, rfl⟩
  · cases hexec
  · cases hexec

theorem throws_definition {F : Fault → Prop} {n : Text} (known : x.catalog.has n) :
    Throws (definition x n) F := by
  obtain ⟨s, hs⟩ := Catalog.has_iff.mp known
  intro p f q hexec
  rw [exec_definition hs] at hexec
  cases hexec

theorem throws_firstFailure {F : Fault → Prop} {step : Text → Run (Option Entry)}
    (hone : ∀ n ∈ names, Throws (step n) F) : Throws (firstFailure step names) F := by
  induction names with
  | nil => exact throws_pure none
  | cons n names ih =>
    refine throws_bind (hone n List.mem_cons_self) fun failure => ?_
    cases failure with
    | some e => exact throws_pure _
    | none => exact ih fun m hm => hone m (List.mem_cons_of_mem n hm)

theorem throws_changeService (wf : x.catalog.WellFormed) (fuel : Nat) :
    ∀ s : Service, x.catalog.find? s.name = some s → x.catalog.height action s.name < fuel →
      Throws (changeService x action fuel s who) x.handler.Raises := by
  induction fuel with
  | zero => exact fun _ _ h => absurd h (Nat.not_lt_zero _)
  | succ fuel ih =>
    intro s hs hheight p f q hexec
    rw [exec_changeService hs] at hexec
    split at hexec
    · cases hexec
    · have hone : ∀ n ∈ inTheWay x action s p.enabled,
          Throws (changeAlong x action fuel who n) x.handler.Raises := by
        intro n hn p f q hexec
        have hbefore := (mem_inTheWay.mp hn).1
        obtain ⟨d, hd⟩ := Catalog.has_iff.mp (wf.has_of_mem_before hbefore)
        obtain rfl := Catalog.name_of_find? hd
        rw [exec_changeAlong hd] at hexec
        have hlt := wf.height_lt hbefore
        exact ih d hd (by omega) _ f q hexec
      refine (?_ : Throws (changeAfter x action fuel s who (inTheWay x action s p.enabled))
        x.handler.Raises) p f q hexec
      unfold changeAfter
      split
      · next first hfirst _ =>
        have hbefore := (mem_inTheWay.mp (List.mem_of_head? hfirst)).1
        exact throws_bind (throws_definition (wf.has_of_mem_before hbefore)) fun _ => throws_pure _
      · refine throws_bind (throws_firstFailure hone) fun failure => ?_
        cases failure with
        | some e => exact throws_pure _
        | none => exact throws_invoke s

theorem throws_change (wf : x.catalog.WellFormed) {n : Text} (known : x.catalog.has n) :
    Throws (change x action n) x.handler.Raises := by
  obtain ⟨s, hs⟩ := Catalog.has_iff.mp known
  intro p f q hexec
  rw [exec_change hs] at hexec
  split at hexec
  · cases hexec
  · obtain rfl := Catalog.name_of_find? hs
    have hthrows : Throws (changeService x action (depthBound x (p.forget s.name)) s s.name)
        x.handler.Raises := throws_changeService wf _ s hs (height_lt_depthBound x action s.name _)
    rcases hr : exec (changeService x action (depthBound x (p.forget s.name)) s s.name)
      (p.forget s.name) with ⟨e | _ | _, r⟩
    · rw [hr] at hexec
      cases hexec
      exact hthrows _ _ _ hr
    · rw [hr] at hexec
      cases hexec
    · rw [hr] at hexec
      cases hexec

theorem throws_sequence {F : Fault → Prop} {run : List Text → Run Unit} (step : Text → Run Unit)
    (hnil : run [] = pure ())
    (hcons : ∀ n ns p, exec (run (n :: ns)) p = exec (do step n; run ns) p)
    (hone : ∀ n ∈ names, Throws (step n) F) : Throws (run names) F := by
  induction names with
  | nil =>
    rw [hnil]
    exact throws_pure ()
  | cons n names ih =>
    intro p f q hexec
    rw [hcons] at hexec
    exact throws_bind (hone n List.mem_cons_self)
      (fun _ => ih fun m hm => hone m (List.mem_cons_of_mem n hm)) p f q hexec

theorem throws_changeAll (wf : x.catalog.WellFormed) (known : ∀ n ∈ names, x.catalog.has n) :
    Throws (changeAll x action names) x.handler.Raises :=
  throws_sequence (change x action) rfl (fun _ _ _ => rfl) fun n hn => throws_change wf (known n hn)

theorem throws_runBatch (wf : x.catalog.WellFormed) {p : Partition}
    (known : ∀ n ∈ p.known, x.catalog.has n) :
    Throws (runBatch x action p) x.handler.Raises := by
  refine throws_bind (throws_changeAll wf known) fun _ => ?_
  split
  · intro p f q hexec
    cases hexec
  · exact throws_pure _

theorem throws_enableDefaults (wf : x.catalog.WellFormed) :
    Throws (enableDefaults x) x.handler.Raises :=
  throws_changeAll wf fun _ hn => has_of_mem_defaults hn

theorem throws_revokeAll (wf : x.catalog.WellFormed) (known : ∀ n ∈ names, x.catalog.has n) :
    Throws (revokeAll x names) x.handler.Raises := by
  refine throws_sequence (revoke x) rfl (exec_revokeAll x) fun n hn => ?_
  intro p f q hexec
  simp only [revoke, exec_bind, exec_get] at hexec
  split at hexec
  · exact throws_change wf (known n hn) _ f q hexec
  · cases hexec

theorem throws_enableUnsettled (wf : x.catalog.WellFormed) {settled : List Text}
    (known : ∀ n ∈ names, x.catalog.has n) :
    Throws (AutoAttach.enableUnsettled settled x names) x.handler.Raises := by
  refine throws_sequence (enableUnlessSettled settled x) rfl (exec_enableUnsettled settled x)
    fun n hn => ?_
  intro p f q hexec
  rw [enableUnlessSettled, exec_ite] at hexec
  split at hexec
  · cases hexec
  · exact throws_change wf (known n hn) p f q hexec

end Subscription.Executor
