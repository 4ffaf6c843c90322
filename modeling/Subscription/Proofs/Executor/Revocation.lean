import Subscription.Proofs.Executor.Cascade
import Subscription.Proofs.Executor.Growth

/-!
Taking away what is no longer granted, under a handler that does all it is asked. The names are ordered
by direct dependency among themselves, but each of them takes everything along that needs it, over
services that are still granted too. A name that has gone down with an earlier one is passed over, and
one whose cascade comes to a service twice fails. Nothing of the kind happens exactly when no enabled
service is overtaken in the list of the names.
-/

namespace Subscription

def revocationCode : Text :=
  "service-no-longer-entitled"

def revocations (warnings : List Entry) : List Text :=
  (warnings.filter (·.code = revocationCode)).filterMap (·.service)

theorem revocations_append (xs ys : List Entry) :
    revocations (xs ++ ys) = revocations xs ++ revocations ys := by
  simp [revocations]

def Handler.Discreet (h : Handler) : Prop :=
  ∀ past call needsReboot notices, h.respond past call = .done needsReboot notices →
    ∀ n ∈ notices, n.code ≠ revocationCode

/-- The handler of a real machine has nothing to say. -/
theorem Handler.discreet_system (inContainer : Bool) : (Handler.system inContainer).Discreet := by
  intro past call needsReboot notices h n hn
  have hnone : notices = [] := by
    cases haction : call.action with
    | disable =>
      simp only [system, plain, haction, Reply.done.injEq] at h
      exact h.2.symm
    | enable =>
      simp only [system, plain, haction] at h
      split at h
      · cases h
      · exact (Reply.done.inj h).2.symm
  rw [hnone] at hn
  cases hn

namespace Catalog

variable {before : Text → List Text} {t n : Text} {names : List Text}

/-- What is overtaken in a list is overtaken at its first name, or comes later and goes along with the
first name, or does not go along with it and is overtaken in the rest. -/
theorem overtaken_cons :
    Overtaken before t (n :: names) ↔ Overtaken before t (sortBy before (before n)) ∨
      (t ∈ names ∧ LeadsTo before n t) ∨ ¬LeadsTo before n t ∧ Overtaken before t names := by
  constructor
  · intro h
    cases h with
    | @here _ l₁ l₂ u split mem leads =>
      cases l₁ with
      | nil => cases mem
      | cons m l₁ =>
        obtain ⟨rfl, rfl⟩ := List.cons_eq_cons.mp split
        by_cases hn : LeadsTo before n t
        · exact Or.inr (Or.inl ⟨by simp, hn⟩)
        · rcases List.mem_cons.mp mem with rfl | mem
          · exact absurd leads hn
          · exact Or.inr (Or.inr ⟨hn, .here rfl mem leads⟩)
    | @deeper _ l₁ l₂ m split clear later =>
      cases l₁ with
      | nil =>
        obtain ⟨rfl, rfl⟩ := List.cons_eq_cons.mp split
        exact Or.inl later
      | cons k l₁ =>
        obtain ⟨rfl, rfl⟩ := List.cons_eq_cons.mp split
        refine Or.inr (Or.inr ⟨clear n List.mem_cons_self, .deeper rfl (fun u hu => ?_) later⟩)
        exact clear u (List.mem_cons_of_mem n hu)
  · rintro (later | ⟨mem, leads⟩ | ⟨hn, h⟩)
    · exact .deeper (List.nil_append (n :: names)).symm (by simp) later
    · obtain ⟨l₁, l₂, rfl⟩ := List.append_of_mem mem
      exact .here (List.cons_append ..).symm List.mem_cons_self leads
    · cases h with
      | here split mem leads =>
        exact .here (by rw [split, List.cons_append]) (List.mem_cons_of_mem n mem) leads
      | deeper split clear later =>
        refine .deeper (by rw [split, List.cons_append]) (fun u hu => ?_) later
        rcases List.mem_cons.mp hu with rfl | hu
        · exact hn
        · exact clear u hu

theorem not_overtaken_nil : ¬Overtaken before t [] := by
  intro h
  obtain ⟨u, hu, -⟩ := h.reached
  cases hu

end Catalog

namespace Executor

variable {x : Setting} {action : ServiceAction} {scope : Text → Prop} {who n : Text} {o : Outcome}
  {p q r : Progress} {names : List Text}

theorem pending_disable {enabled : List Text} : pending .disable enabled n = true ↔ n ∈ enabled := by
  simp [pending]

/-! ### Closed lists stay closed -/

theorem Step.closed (h : Step x action scope who p q) (hp : p.enabled.Nodup)
    (closed : Closed x.catalog action p.enabled) : Closed x.catalog action q.enabled := by
  cases h with
  | warned | raised | refused => exact closed
  | @changed s _ _ ready _ _ =>
    intro a ha b hb
    change pending action (applyChange action s.name p.enabled) _ = false at ha ⊢
    rw [pending_applyChange hp, Bool.and_eq_false_iff] at ha ⊢
    rcases ha with ha | ha
    · exact Or.inl (closed a ha b hb)
    · obtain rfl : a = s.name := by simpa using ha
      exact Or.inl (ready.clear b hb)

theorem Steps.closed (h : Steps x action scope who p q) (hp : p.enabled.Nodup)
    (closed : Closed x.catalog action p.enabled) : Closed x.catalog action q.enabled := by
  induction h with
  | refl => exact closed
  | tail hsteps hstep ih => exact hstep.closed (Steps.nodup hsteps hp) ih

/-! ### What is said of what is granted -/

def Progress.revocations (p : Progress) : List Text :=
  Subscription.revocations p.tally.warnings

theorem keeps_invoke (discreet : x.handler.Discreet) (s : Service) :
    Keeps Progress.revocations (invoke x action s who) := by
  intro p
  rw [exec_invoke]
  cases hreply : x.handler.respond p.calls (x.call action s) with
  | raised | failed => rfl
  | done needsReboot notices =>
    have hnone : (notices.map fun n => (⟨n.message, n.code, some s.name, .service⟩ : Entry)).filter
        (·.code = revocationCode) = [] := by
      refine List.filter_eq_nil_iff.mpr fun e he => ?_
      obtain ⟨n, hn, rfl⟩ := List.mem_map.mp he
      simpa using discreet _ _ _ _ hreply n hn
    show Subscription.revocations (p.tally.warnings ++ _) = _
    rw [revocations_append]
    simp [Subscription.revocations, hnone, Progress.revocations, Setting.call]

theorem keeps_changeService (discreet : x.handler.Discreet) (fuel : Nat) {s : Service}
    (hs : x.catalog.find? s.name = some s) :
    Keeps Progress.revocations (changeService x .disable fuel s who) := by
  have hR : Cumulative fun p q => q.revocations = p.revocations :=
    ⟨fun _ => rfl, fun h h' => h'.trans h⟩
  refine (hR.compositional (fun p title => ?_) (keeps_invoke discreet)).changeService fuel s hs
  show Subscription.revocations (p.tally.warnings ++ _) = _
  rw [revocations_append]
  exact List.append_nil _

/-! ### Revoking one name -/

/-- What comes of a name that is enabled when its turn comes: it is warned of, and its turn succeeds with
all that needs it, or fails because a service is overtaken on the way. -/
structure Revocation (x : Setting) (n : Text) (o : Outcome) (p q : Progress) : Prop where
  outcomes : q.tally.outcomes = p.tally.outcomes ++ [(n, o)]
  warned : x.handler.Discreet → q.revocations = p.revocations ++ [n]
  nodup : q.enabled.Nodup
  closed : Closed x.catalog .disable q.enabled
  subset : ∀ m ∈ q.enabled, m ∈ p.enabled
  leads : ∀ m ∈ p.enabled, m ∉ q.enabled → Catalog.LeadsTo x.catalog.dependentsOf n m
  result : (o = .success ∧ (∀ m ∈ q.enabled, ¬Catalog.LeadsTo x.catalog.dependentsOf n m) ∧
      ∀ t ∈ p.enabled, ¬Catalog.Overtaken x.catalog.dependentsOf t
        (Catalog.sortBy x.catalog.dependentsOf (x.catalog.dependentsOf n))) ∨
    (o = .failure ∧ ∃ t ∈ p.enabled, Catalog.Overtaken x.catalog.dependentsOf t
        (Catalog.sortBy x.catalog.dependentsOf (x.catalog.dependentsOf n)))

theorem exec_revoke_of_not_mem (hn : n ∉ p.enabled) : exec (revoke x n) p = (.ok (), p) := by
  simp only [revoke, exec_bind, exec_get, hn, decide_false]
  cases x.catalog.find? n <;> rfl

theorem exec_revoke_of_mem {s : Service} (hs : x.catalog.find? s.name = some s)
    (hn : s.name ∈ p.enabled) :
    exec (revoke x s.name) p = exec (change x .disable s.name)
      { p with tally := p.tally.addWarning (.ofService s.name (.noLongerEntitled s.title)) } := by
  simp only [revoke, exec_bind, exec_get, hs, hn, decide_true, exec_record]

def Progress.warned (p : Progress) (s : Service) : Progress :=
  { p.forget s.name with tally := p.tally.addWarning (.ofService s.name (.noLongerEntitled s.title)) }

theorem exec_revoke {s : Service} (hs : x.catalog.find? s.name = some s) (hn : s.name ∈ p.enabled) :
    exec (revoke x s.name) p = recorded s.name
      (exec (changeService x .disable (depthBound x (p.warned s)) s s.name) (p.warned s)) := by
  have hpend : ¬(s.name ∈ p.changed ∧ pending .disable p.enabled s.name = false) := by
    simp [pending, hn]
  rw [exec_revoke_of_mem hs hn, exec_change hs, if_neg hpend]
  rfl

theorem revocation_revoke (wf : x.catalog.WellFormed) (obeys : x.handler.Obeys .disable)
    (yes : x.assumeYes = true) (known : x.catalog.has n) (hp : p.enabled.Nodup)
    (closed : Closed x.catalog .disable p.enabled) (hn : n ∈ p.enabled) :
    ∃ o q, exec (revoke x n) p = (.ok (), q) ∧ Revocation x n o p q := by
  obtain ⟨s, hs⟩ := Catalog.has_iff.mp known
  obtain rfl := Catalog.name_of_find? hs
  rw [exec_revoke hs hn]
  have hwarned : (p.warned s).revocations = p.revocations ++ [s.name] := revocations_append _ _
  have hheight := height_lt_depthBound x .disable s.name (p.warned s)
  have hobeyed : Obeyed x .disable s.name (p.warned s) _ _
      (exec (changeService x .disable (depthBound x (p.warned s)) s s.name) (p.warned s)) :=
    obeyed_changeService wf obeys yes _ s (p.warned s) hs hheight hp closed (fun _ _ _ _ => rfl)
      (pending_disable.mpr hn)
  have hchanges : Changes x .disable s.name s.name (p.warned s)
      (exec (changeService x .disable (depthBound x (p.warned s)) s s.name) (p.warned s)) :=
    changes_changeService wf _ s (p.warned s) hs hheight hp
  have hsaid : x.handler.Discreet →
      (exec (changeService x .disable (depthBound x (p.warned s)) s s.name) (p.warned s)).2.revocations =
        p.revocations ++ [s.name] :=
    fun discreet => (keeps_changeService discreet _ hs _).trans hwarned
  generalize exec (changeService x .disable (depthBound x (p.warned s)) s s.name) (p.warned s) = result
    at hobeyed hchanges hsaid ⊢
  have hnodup : result.2.enabled.Nodup := hchanges.steps.nodup hp
  have hclosed := hchanges.steps.closed hp closed
  have houtcomes : result.2.tally.outcomes = p.tally.outcomes := hchanges.steps.outcomes_eq
  have hsubset : ∀ m ∈ result.2.enabled, m ∈ p.enabled := fun m hm =>
    pending_disable.mp (hchanges.steps.pending_of_pending hp (pending_disable.mpr hm))
  have hleads : ∀ m ∈ p.enabled, m ∉ result.2.enabled →
      Catalog.LeadsTo x.catalog.dependentsOf s.name m := by
    intro m hm hgone
    by_contra hne
    have hsame := hchanges.steps.pending_of_not_scope hp hne
    exact hgone (pending_disable.mp (hsame.trans (pending_disable.mpr hm)))
  cases hobeyed with
  | changed steps clear effect =>
    have hgone : ∀ m ∈ _, ¬Catalog.LeadsTo x.catalog.dependentsOf s.name m := fun m hm =>
      ((effect m).mp (pending_disable.mpr hm)).2
    exact ⟨.success, _, rfl, congrArg (· ++ [_]) houtcomes, hsaid, hnodup, hclosed, hsubset, hleads,
      Or.inl ⟨rfl, hgone, fun t ht => clear t (pending_disable.mpr ht)⟩⟩
  | @overtaken q t steps known wanted late =>
    exact ⟨.failure, _, rfl, congrArg (· ++ [_]) houtcomes, hsaid, hnodup, hclosed, hsubset, hleads,
      Or.inr ⟨rfl, t.name, pending_disable.mp wanted, late⟩⟩

/-! ### Revoking one name after the other -/

/-- What comes of some names: each that is still enabled when its turn comes is revoked, the others are
passed over. -/
inductive Revocations (x : Setting) : List Text → Progress → Progress → Prop
  | nil (p : Progress) : Revocations x [] p p
  | gone {n : Text} {names : List Text} {p q : Progress} (absent : n ∉ p.enabled)
      (rest : Revocations x names p q) : Revocations x (n :: names) p q
  | turned {n : Text} {names : List Text} {o : Outcome} {p q r : Progress} (there : n ∈ p.enabled)
      (turn : Revocation x n o p r) (rest : Revocations x names r q) :
      Revocations x (n :: names) p q

theorem revocations_of_obeys (wf : x.catalog.WellFormed) (obeys : x.handler.Obeys .disable)
    (yes : x.assumeYes = true) (known : ∀ n ∈ names, x.catalog.has n) (hp : p.enabled.Nodup)
    (closed : Closed x.catalog .disable p.enabled) :
    ∃ q, exec (revokeAll x names) p = (.ok (), q) ∧ Revocations x names p q := by
  induction names generalizing p with
  | nil => exact ⟨p, rfl, .nil p⟩
  | cons n names ih =>
    have hknown := fun m hm => known m (List.mem_cons_of_mem n hm)
    rw [exec_revokeAll, exec_bind]
    by_cases hn : n ∈ p.enabled
    · obtain ⟨o, r, hexec, turn⟩ :=
        revocation_revoke wf obeys yes (known n List.mem_cons_self) hp closed hn
      obtain ⟨q, hrest, hrevocations⟩ := ih hknown turn.nodup turn.closed
      exact ⟨q, by rw [hexec]; exact hrest, .turned hn turn hrevocations⟩
    · obtain ⟨q, hrest, hrevocations⟩ := ih hknown hp closed
      exact ⟨q, by rw [exec_revoke_of_not_mem hn]; exact hrest, .gone hn hrevocations⟩

theorem revocations_revokeAll (wf : x.catalog.WellFormed) (obedient : x.handler.Obedient)
    (yes : x.assumeYes = true) (known : ∀ n ∈ names, x.catalog.has n) (hp : p.enabled.Nodup)
    (closed : Closed x.catalog .disable p.enabled) :
    ∃ q, exec (revokeAll x names) p = (.ok (), q) ∧ Revocations x names p q :=
  revocations_of_obeys wf (obedient.obeys .disable) yes known hp closed

namespace Revocations

theorem subset (h : Revocations x names p q) : ∀ m ∈ q.enabled, m ∈ p.enabled := by
  induction h with
  | nil p => exact fun _ hm => hm
  | gone _ _ ih => exact ih
  | turned _ turn _ ih => exact fun m hm => turn.subset m (ih m hm)

/-- What has gone has gone along with one of the names. -/
theorem leads (h : Revocations x names p q) {m : Text} (hm : m ∈ p.enabled) (hgone : m ∉ q.enabled) :
    ∃ n ∈ names, Catalog.LeadsTo x.catalog.dependentsOf n m := by
  induction h with
  | nil p => exact absurd hm hgone
  | gone _ _ ih =>
    obtain ⟨n, hn, hleads⟩ := ih hm hgone
    exact ⟨n, List.mem_cons_of_mem _ hn, hleads⟩
  | @turned n names o p q r _ turn _ ih =>
    by_cases hr : m ∈ r.enabled
    · obtain ⟨k, hk, hleads⟩ := ih hr hgone
      exact ⟨k, List.mem_cons_of_mem n hk, hleads⟩
    · exact ⟨n, List.mem_cons_self, turn.leads m hm hr⟩

/-- The outcomes are those of names that were enabled, in their order, and no name stays enabled without
a failure. There is a warning for each outcome and no other. -/
theorem record (h : Revocations x names p q) :
    ∃ os : List (Text × Outcome), q.tally.outcomes = p.tally.outcomes ++ os ∧
      (os.map (·.1)).Sublist names ∧ (∀ o ∈ os, o.1 ∈ p.enabled ∧ o.2 ≠ .skipped) ∧
      (∀ n ∈ names, n ∈ q.enabled → (n, .failure) ∈ os) ∧
      (x.handler.Discreet → q.revocations = p.revocations ++ os.map (·.1)) := by
  induction h with
  | nil p => exact ⟨[], by simp⟩
  | @gone n names p q absent rest ih =>
    obtain ⟨os, houtcomes, hsub, hos, hleft, hsaid⟩ := ih
    refine ⟨os, houtcomes, hsub.cons n, hos, fun m hm hend => ?_, hsaid⟩
    rcases List.mem_cons.mp hm with rfl | hm
    · exact absurd (rest.subset m hend) absent
    · exact hleft m hm hend
  | @turned n names o p q r there turn rest ih =>
    obtain ⟨os, houtcomes, hsub, hos, hleft, hsaid⟩ := ih
    refine ⟨(n, o) :: os, ?_, hsub.cons_cons n, fun o' ho' => ?_, fun m hm hend => ?_,
      fun discreet => ?_⟩
    · rw [houtcomes, turn.outcomes, List.append_assoc]
      rfl
    · rcases List.mem_cons.mp ho' with rfl | ho'
      · rcases turn.result with ⟨rfl, -⟩ | ⟨rfl, -⟩ <;> exact ⟨there, by simp⟩
      · exact ⟨turn.subset _ (hos o' ho').1, (hos o' ho').2⟩
    · rcases List.mem_cons.mp hm with rfl | hm
      · rcases turn.result with ⟨rfl, hgone, -⟩ | ⟨rfl, -⟩
        · exact absurd .refl (hgone m (rest.subset m hend))
        · exact List.mem_cons_self
      · exact List.mem_cons_of_mem _ (hleft m hm hend)
    · rw [hsaid discreet, turn.warned discreet, List.append_assoc]
      rfl

/-- Where no cascade is overtaken, none of the names stays enabled. -/
theorem not_mem (h : Revocations x names p q)
    (clear : ∀ t n, ¬Catalog.Overtaken x.catalog.dependentsOf t
      (Catalog.sortBy x.catalog.dependentsOf (x.catalog.dependentsOf n))) :
    ∀ n ∈ names, n ∉ q.enabled := by
  induction h with
  | nil p => simp
  | gone absent rest ih => exact List.forall_mem_cons.mpr ⟨fun hq => absent (rest.subset _ hq), ih⟩
  | @turned n names o p q r _ turn rest ih =>
    refine List.forall_mem_cons.mpr ⟨fun hq => ?_, ih⟩
    rcases turn.result with ⟨-, hgone, -⟩ | ⟨-, t, -, hlate⟩
    · exact hgone n (rest.subset n hq) .refl
    · exact clear t n hlate

/-- When all the names are enabled at the start, each of them has its turn and succeeds exactly if no
enabled service is overtaken. -/
theorem succeeds_iff (h : Revocations x names p q) (hall : ∀ n ∈ names, n ∈ p.enabled) :
    q.tally.outcomes = p.tally.outcomes ++ names.map (fun n => (n, .success)) ↔
      ∀ t ∈ p.enabled, ¬Catalog.Overtaken x.catalog.dependentsOf t names := by
  induction h with
  | nil p => simp [Catalog.not_overtaken_nil]
  | gone absent _ _ => exact absurd (hall _ List.mem_cons_self) absent
  | @turned n names o p q r there turn rest ih =>
    obtain ⟨os, houtcomes, -, hos, -⟩ := rest.record
    have hstep : q.tally.outcomes = p.tally.outcomes ++ (n, o) :: os := by
      rw [houtcomes, turn.outcomes, List.append_assoc]
      rfl
    rw [hstep, List.append_cancel_left_eq, List.map_cons, List.cons.injEq, Prod.mk.injEq]
    rcases turn.result with ⟨rfl, hgone, hclear⟩ | ⟨rfl, t, ht, hlate⟩
    · by_cases hin : ∀ m ∈ names, m ∈ r.enabled
      · have hrest := ih hin
        rw [houtcomes, List.append_cancel_left_eq] at hrest
        rw [hrest]
        refine ⟨fun hnone t ht hlate => ?_, fun hnone => ⟨⟨rfl, rfl⟩, fun t ht hlate =>
          hnone t (turn.subset t ht)
            (Catalog.overtaken_cons.mpr (Or.inr (Or.inr ⟨hgone t ht, hlate⟩)))⟩⟩
        rcases Catalog.overtaken_cons.mp hlate with hlate | ⟨hmem, hleads⟩ | ⟨hfree, hlate⟩
        · exact hclear t ht hlate
        · exact hgone t (hin t hmem) hleads
        · by_cases hr : t ∈ r.enabled
          · exact hnone.2 t hr hlate
          · exact hfree (turn.leads t ht hr)
      · -- A name that has gone with the first one is passed over.
        obtain ⟨m, hm, hr⟩ : ∃ m ∈ names, m ∉ r.enabled := by simpa using hin
        have hp := hall m (List.mem_cons_of_mem n hm)
        refine iff_of_false (fun hos' => ?_) fun hnone => ?_
        · have hmem : (m, Outcome.success) ∈ os := by
            rw [hos'.2]
            exact List.mem_map.mpr ⟨m, hm, rfl⟩
          exact hr (hos _ hmem).1
        · exact hnone m hp (Catalog.overtaken_cons.mpr (Or.inr (Or.inl ⟨hm, turn.leads m hp hr⟩)))
    · exact iff_of_false (fun hos' => by cases hos'.1.2) fun hnone =>
        hnone t ht (Catalog.overtaken_cons.mpr (Or.inl hlate))

end Revocations

end Executor

end Subscription
