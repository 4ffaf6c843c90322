import Subscription.Proofs.Executor.Turns

/-!
Whole cascades under a handler that does all it is asked. The list of what is in the way of a service
is fixed before the first of it is changed, and a change may reach further down than the list: when a
service of the list leads to a later one over services outside of it, the later one is changed before
its turn, and its turn then fails. `Overtaken` says where that happens, and `obeyed_changeService` that
nothing else can go wrong.
-/

namespace Subscription

def Handler.Obedient (h : Handler) : Prop :=
  ∀ past call, ∃ needsReboot notices, h.respond past call = .done needsReboot notices

theorem Handler.obedient_system : (Handler.system false).Obedient := by
  intro past call
  cases h : call.action <;> simp [system, plain, h]

def Handler.Obeys (h : Handler) (action : ServiceAction) : Prop :=
  ∀ past call, call.action = action →
    ∃ needsReboot notices, h.respond past call = .done needsReboot notices

theorem Handler.Obedient.obeys {h : Handler} (obedient : h.Obedient) (action : ServiceAction) :
    h.Obeys action :=
  fun past call _ => obedient past call

theorem Handler.Obedient.answers {h : Handler} (obedient : h.Obedient) : h.Answers := by
  intro past call text hraised
  obtain ⟨needsReboot, notices, hdone⟩ := obedient past call
  cases hraised.symm.trans hdone

theorem Handler.obeys_system (inContainer : Bool) : (Handler.system inContainer).Obeys .disable := by
  intro past call h
  simp [system, plain, h]

namespace Catalog

variable {before : Text → List Text} {t : Text} {names : List Text}

/-- What some names lead to, themselves included. -/
def Reached (before : Text → List Text) (names : List Text) (t : Text) : Prop :=
  ∃ u ∈ names, LeadsTo before u t

theorem reached_append_singleton {n : Text} :
    Reached before (names ++ [n]) t ↔ Reached before names t ∨ LeadsTo before n t := by
  simp [Reached, or_and_right, exists_or]

theorem Reached.of_mem_before {a b : Text} (h : Reached before names a) (hb : b ∈ before a) :
    Reached before names b := by
  obtain ⟨u, hu, ha⟩ := h
  exact ⟨u, hu, ha.tail hb⟩

/-- Changing some names in turn, each after what goes before it, comes to `t` again after `t` has been
changed on behalf of an earlier name. -/
inductive Overtaken (before : Text → List Text) (t : Text) : List Text → Prop
  | here {names l₁ l₂ : List Text} {u : Text} (split : names = l₁ ++ t :: l₂) (mem : u ∈ l₁)
      (leads : LeadsTo before u t) : Overtaken before t names
  | deeper {names l₁ l₂ : List Text} {n : Text} (split : names = l₁ ++ n :: l₂)
      (clear : ∀ u ∈ l₁, ¬LeadsTo before u t)
      (later : Overtaken before t (sortBy before (before n))) : Overtaken before t names

theorem Overtaken.reached (h : Overtaken before t names) : Reached before names t := by
  induction h with
  | here split => exact ⟨t, by simp [split], .refl⟩
  | @deeper names l₁ l₂ n split _ _ ih =>
    obtain ⟨m, hm, hleads⟩ := ih
    exact ⟨n, by simp [split], .head (mem_sortBy.mp hm) hleads⟩

theorem Overtaken.append (h : Overtaken before t names) (more : List Text) :
    Overtaken before t (names ++ more) := by
  cases h with
  | here split mem leads => exact .here (by rw [split, List.append_assoc]; rfl) mem leads
  | deeper split clear later => exact .deeper (by rw [split, List.append_assoc]; rfl) clear later

/-- What is overtaken in a list is overtaken at its last name or before. -/
theorem Overtaken.of_append_singleton {n : Text} (h : Overtaken before t (names ++ [n])) :
    Overtaken before t names ∨ (n = t ∧ Reached before names t) ∨
      (¬Reached before names t) ∧ Overtaken before t (sortBy before (before n)) := by
  cases h with
  | here split mem leads =>
    rcases append_singleton_eq split with ⟨rfl, rfl⟩ | ⟨l₃, hl₃⟩
    · exact Or.inr (Or.inl ⟨rfl, _, mem, leads⟩)
    · exact Or.inl (.here hl₃ mem leads)
  | deeper split clear later =>
    rcases append_singleton_eq split with ⟨rfl, rfl⟩ | ⟨l₃, hl₃⟩
    · exact Or.inr (Or.inr ⟨fun ⟨u, hu, hleads⟩ => clear u hu hleads, later⟩)
    · exact Or.inl (.deeper hl₃ clear later)

/-- What goes before something that goes before a name goes before the name itself. -/
def TransitiveBefore (before : Text → List Text) : Prop :=
  ∀ a, ∀ b ∈ before a, ∀ d ∈ before b, d ∈ before a

/-- Nothing is overtaken among names in order when what goes before what goes before a name goes before
the name itself: whatever an earlier name leads to stands before that name. -/
theorem not_overtaken_sortBy (acyclic : ∀ n, ¬LeadsBelow before n n)
    (transitive : TransitiveBefore before) (names : List Text) :
    ¬Overtaken before t (sortBy before names) := by
  have hbelow : ∀ {u}, LeadsBelow before u t → t ∈ before u := by
    intro u h
    induction h using Relation.TransGen.head_induction_on with
    | single hb => exact hb
    | head hb _ ih => exact transitive _ _ hb _ ih
  suffices H : ∀ order, Overtaken before t order → ∀ names, order ≠ sortBy before names from
    fun h => H _ h names rfl
  intro order h
  induction h with
  | deeper _ _ _ ih => exact fun _ _ => ih _ rfl
  | @here order l₁ l₂ u split mem leads =>
    rintro names rfl
    have hnodup := nodup_sortBy before names
    have hfresh : t ∉ l₁ := by
      rw [split] at hnodup
      exact fun ht => List.disjoint_of_nodup_append hnodup ht List.mem_cons_self
    rcases Relation.reflTransGen_iff_eq_or_transGen.mp leads with rfl | hleads
    · exact hfresh mem
    · obtain ⟨k₁, k₂, rfl⟩ := List.append_of_mem mem
      have ht : t ∈ names := mem_sortBy.mp (split ▸ List.mem_append_right _ List.mem_cons_self)
      have hearlier : t ∈ k₁ :=
        ordered_sortBy acyclic names k₁ u (k₂ ++ t :: l₂) (by simp [split]) t (hbelow hleads) ht
      exact hfresh (List.mem_append_left _ hearlier)

theorem keep_of_leadsTo {keep : Text → Bool}
    (closed : ∀ a, keep a = false → ∀ b ∈ before a, keep b = false) {u : Text}
    (h : LeadsTo before u t) (ht : keep t = true) : keep u = true := by
  induction h using Relation.ReflTransGen.head_induction_on with
  | refl => exact ht
  | head hstep _ ih =>
    by_contra hne
    rw [closed _ (by simpa using hne) _ hstep] at ih
    cases ih

/-- A name that is kept is overtaken whether or not names that do not lead to it are left out. -/
theorem overtaken_filter {keep : Text → Bool}
    (closed : ∀ a, keep a = false → ∀ b ∈ before a, keep b = false) (ht : keep t = true) :
    Overtaken before t (names.filter keep) ↔ Overtaken before t names := by
  -- What leads to a kept name is kept, so it stands in both lists and in the same order.
  constructor
  · intro h
    cases h with
    | here split mem leads =>
      obtain ⟨k₁, k₂, rfl, rfl, hk₂⟩ := List.filter_eq_append_iff.mp split
      obtain ⟨gap, rest, rfl, -, -, -⟩ := List.filter_eq_cons_iff.mp hk₂
      exact .here (List.append_assoc k₁ gap (t :: rest)).symm
        (List.mem_append_left gap (List.mem_filter.mp mem).1) leads
    | @deeper _ _ _ n split clear later =>
      obtain ⟨k₁, k₂, rfl, rfl, hk₂⟩ := List.filter_eq_append_iff.mp split
      obtain ⟨gap, rest, rfl, hgap, -, -⟩ := List.filter_eq_cons_iff.mp hk₂
      refine .deeper (List.append_assoc k₁ gap (n :: rest)).symm (fun u hu hleads => ?_) later
      have hkeep := keep_of_leadsTo closed hleads ht
      rcases List.mem_append.mp hu with hu | hu
      · exact clear u (List.mem_filter.mpr ⟨hu, hkeep⟩) hleads
      · exact hgap u hu hkeep
  · intro h
    cases h with
    | @here _ l₁ l₂ u split mem leads =>
      have hsplit : names.filter keep = l₁.filter keep ++ t :: l₂.filter keep := by
        rw [split, List.filter_append, List.filter_cons_of_pos ht]
      exact .here hsplit (List.mem_filter.mpr ⟨mem, keep_of_leadsTo closed leads ht⟩) leads
    | @deeper _ l₁ l₂ n split clear later =>
      obtain ⟨m, hm, hleads⟩ := later.reached
      have hn := keep_of_leadsTo closed (.head (mem_sortBy.mp hm) hleads) ht
      have hsplit : names.filter keep = l₁.filter keep ++ n :: l₂.filter keep := by
        rw [split, List.filter_append, List.filter_cons_of_pos hn]
      exact .deeper hsplit (fun u hu => clear u (List.mem_filter.mp hu).1) later

end Catalog

namespace Executor

variable {x : Setting} {action : ServiceAction} {who : Text} {p q : Progress}

/-- Nothing below a service that is not pending is pending. -/
def Closed (c : Catalog) (action : ServiceAction) (enabled : List Text) : Prop :=
  ∀ a, pending action enabled a = false → ∀ b ∈ c.before action a, pending action enabled b = false

/-- Enabled services with all that they require leave no gap in either direction. -/
theorem closed_of_requirements {c : Catalog} {enabled : List Text}
    (h : ∀ n ∈ enabled, ∀ r ∈ c.requirementsOf n, r ∈ enabled) (action : ServiceAction) :
    Closed c action enabled := by
  intro a ha b hb
  cases action with
  | enable =>
    have ha : a ∈ enabled := by simpa [pending] using ha
    have := h a ha b hb
    simpa [pending] using this
  | disable =>
    have ha : a ∉ enabled := by simpa [pending] using ha
    have hb : a ∈ c.requirementsOf b := Catalog.mem_dependentsOf.mp hb
    have : b ∉ enabled := fun hmem => ha (h b hmem a hb)
    simpa [pending] using this

/-- How the change of a service ends when the handler does all it is asked and the services in the
way may be changed along. -/
inductive Obeyed (x : Setting) (action : ServiceAction) (who : Text) (p : Progress)
    (names : List Text) (changes : Text → Prop) : Except Fault (Option Entry) × Progress → Prop
  | changed {q : Progress} (steps : Steps x action (fun _ => True) who p q)
      (clear : ∀ t, pending action p.enabled t = true →
        ¬Catalog.Overtaken (x.catalog.before action) t names)
      (effect : ∀ n, pending action q.enabled n = true ↔
        pending action p.enabled n = true ∧ ¬changes n) :
      Obeyed x action who p names changes (.ok none, q)
  | overtaken {q : Progress} {s : Service} (steps : Steps x action (fun _ => True) who p q)
      (known : x.catalog.find? s.name = some s) (wanted : pending action p.enabled s.name = true)
      (late : Catalog.Overtaken (x.catalog.before action) s.name names) :
      Obeyed x action who p names changes
        (.ok (some (.ofService who (alreadyMessage action s.title))), q)

def Permitted (x : Setting) (action : ServiceAction) (enabled : List Text) (name : Text) : Prop :=
  ∀ s, x.catalog.find? s.name = some s → Catalog.LeadsTo (x.catalog.before action) name s.name →
    pending action enabled s.name = true → x.obstacle? action s = none

theorem Permitted.of_pending {name : Text} {enabled enabled' : List Text}
    (h : Permitted x action enabled name)
    (hsub : ∀ n, pending action enabled' n = true → pending action enabled n = true) :
    Permitted x action enabled' name :=
  fun s hs hleads hpend => h s hs hleads (hsub s.name hpend)

theorem Permitted.of_mem_before {name n : Text} {enabled : List Text}
    (h : Permitted x action enabled name) (hn : n ∈ x.catalog.before action name) :
    Permitted x action enabled n :=
  fun s hs hleads hpend => h s hs (.head hn hleads) hpend

/-- What is left pending is closed again. -/
theorem Closed.of_effect {changes : Text → Prop} (closed : Closed x.catalog action p.enabled)
    (effect : ∀ n, pending action q.enabled n = true ↔
      pending action p.enabled n = true ∧ ¬changes n)
    (hchanges : ∀ a, changes a → ∀ b ∈ x.catalog.before action a, changes b) :
    Closed x.catalog action q.enabled := by
  intro a ha b hb
  by_contra hne
  obtain ⟨hpb, hcb⟩ := (effect b).mp (by simpa using hne)
  have hpa : pending action p.enabled a = true := by
    by_contra hna
    rw [closed a (by simpa using hna) b hb] at hpb
    cases hpb
  have := (effect a).mpr ⟨hpa, fun hca => hcb (hchanges a hca b hb)⟩
  rw [ha] at this
  cases this

/-- One more name is changed after others, none of which leads to it. -/
theorem Obeyed.snoc {done : List Text} {n : Text} {result : Except Fault (Option Entry) × Progress}
    (steps : Steps x action (fun _ => True) who p q)
    (clear : ∀ t, pending action p.enabled t = true →
      ¬Catalog.Overtaken (x.catalog.before action) t done)
    (effect : ∀ m, pending action q.enabled m = true ↔
      pending action p.enabled m = true ∧ ¬Catalog.Reached (x.catalog.before action) done m)
    (fresh : ¬Catalog.Reached (x.catalog.before action) done n)
    (h : Obeyed x action who q
      (Catalog.sortBy (x.catalog.before action) (x.catalog.before action n))
      (Catalog.LeadsTo (x.catalog.before action) n) result) :
    Obeyed x action who p (done ++ [n]) (Catalog.Reached (x.catalog.before action) (done ++ [n]))
      result := by
  cases h with
  | changed more clear' effect' =>
    refine .changed (steps.trans more) (fun t ht h => ?_) fun m => ?_
    · rcases h.of_append_singleton with h | ⟨rfl, h⟩ | ⟨hfree, hlater⟩
      · exact clear t ht h
      · exact fresh h
      · exact clear' t ((effect t).mpr ⟨ht, hfree⟩) hlater
    · rw [effect' m, effect m, Catalog.reached_append_singleton, not_or, and_assoc]
  | @overtaken r t more known wanted late =>
    obtain ⟨hpt, hfree⟩ := (effect t.name).mp wanted
    exact .overtaken (steps.trans more) known hpt
      (.deeper rfl (fun u hu hleads => hfree ⟨u, hu, hleads⟩) late)

/-- The names that stand in the way are changed one after the other, until the turn of one comes that
was changed already. -/
theorem obeyed_changeAlong {fuel : Nat} {names : List Text} (hfuel : names ≠ [] → fuel ≠ 0)
    (known : ∀ n ∈ names, x.catalog.has n)
    (wanted : ∀ n ∈ names, pending action p.enabled n = true)
    (permitted : ∀ n ∈ names, Permitted x action p.enabled n) (hp : p.enabled.Nodup)
    (closed : Closed x.catalog action p.enabled)
    (hone : ∀ (s : Service) (q : Progress), x.catalog.find? s.name = some s → s.name ∈ names →
      q.enabled.Nodup → Closed x.catalog action q.enabled →
      Permitted x action q.enabled s.name → pending action q.enabled s.name = true →
      Obeyed x action who q
        (Catalog.sortBy (x.catalog.before action) (x.catalog.before action s.name))
        (Catalog.LeadsTo (x.catalog.before action) s.name)
        (exec (changeService x action fuel s who) q)) :
    Obeyed x action who p names (Catalog.Reached (x.catalog.before action) names)
      (exec (firstFailure (changeAlong x action fuel who) names) p) := by
  -- While the loop goes on, the names that are done have been obeyed as a list of their own.
  refine firstFailure_rule
    (I := fun done q => Obeyed x action who p done
      (Catalog.Reached (x.catalog.before action) done) (.ok none, q))
    ?_ (fun q hq => hq) (.changed .refl (fun t _ h => ?_) (by simp [Catalog.Reached]))
  · rintro done n rest rfl q hdone
    obtain ⟨k, rfl⟩ := Nat.exists_eq_succ_of_ne_zero (hfuel (by simp))
    have hn : n ∈ done ++ n :: rest := by simp
    obtain ⟨s, hs⟩ := Catalog.has_iff.mp (known n hn)
    obtain rfl := Catalog.name_of_find? hs
    rw [exec_changeAlong hs]
    cases hdone with
    | changed steps clear effect =>
      set q' : Progress := { q with
        tally := q.tally.addWarning (.ofService who (alongMessage action s.title)) } with hq'
      have hsteps : Steps x action (fun _ => True) who p q' := steps.tail (.warned q _)
      by_cases hlate : Catalog.Reached (x.catalog.before action) done s.name
      · have hnot : pending action q.enabled s.name = false := by
          by_contra hne
          exact ((effect s.name).mp (by simpa using hne)).2 hlate
        have hfree := permitted s.name hn s hs .refl (wanted s.name hn)
        have hrefusal : refusal? x action s q'.enabled = some (alreadyMessage action s.title) := by
          simp [refusal?, hfree, hq', hnot]
        obtain ⟨u, hu, hleads⟩ := hlate
        rw [exec_changeService hs, hrefusal]
        exact Or.inr ⟨by simp, .overtaken hsteps hs (wanted s.name hn) (.here rfl hu hleads)⟩
      · have hpend := (effect s.name).mpr ⟨wanted s.name hn, hlate⟩
        have hcascade := Obeyed.snoc hsteps clear effect hlate <|
          hone s q' hs hn (steps.nodup hp)
            (closed.of_effect effect fun _ ha _ hb => ha.of_mem_before hb)
            ((permitted s.name hn).of_pending fun m hm => ((effect m).mp hm).1) hpend
        generalize exec (changeService x action (k + 1) s who) q' = result at hcascade
        cases hcascade with
        | changed steps clear effect => exact Or.inl ⟨_, rfl, .changed steps clear effect⟩
        | overtaken steps known wanted late =>
          refine Or.inr ⟨by simp, .overtaken steps known wanted ?_⟩
          rw [← List.singleton_append, ← List.append_assoc]
          exact late.append rest
  · obtain ⟨n, hn, -⟩ := h.reached
    cases hn

/-- What is pending at or below a service is the service itself or below something in its way. -/
theorem leadsTo_iff_inTheWay {s : Service} {n : Text} (closed : Closed x.catalog action p.enabled)
    (hn : pending action p.enabled n = true) :
    Catalog.LeadsTo (x.catalog.before action) s.name n ↔
      n = s.name ∨ Catalog.Reached (x.catalog.before action) (inTheWay x action s p.enabled) n := by
  constructor
  · intro hleads
    rcases Relation.ReflTransGen.cases_head hleads with rfl | ⟨u, hu, hleads⟩
    · exact Or.inl rfl
    · exact Or.inr ⟨u, mem_inTheWay.mpr ⟨hu, Catalog.keep_of_leadsTo closed hleads hn⟩, hleads⟩
  · rintro (rfl | ⟨u, hu, hleads⟩)
    · exact .refl
    · exact .head (mem_inTheWay.mp hu).1 hleads

/-- With nothing in its way any more, the service itself is changed. -/
theorem obeyed_invoke (wf : x.catalog.WellFormed) (obeys : x.handler.Obeys action) {s : Service}
    (hs : x.catalog.find? s.name = some s) (hp : p.enabled.Nodup)
    (closed : Closed x.catalog action p.enabled) (permitted : Permitted x action p.enabled s.name)
    (wanted : pending action p.enabled s.name = true)
    (steps : Steps x action (fun _ => True) who p q)
    (clear : ∀ t, pending action p.enabled t = true →
      ¬Catalog.Overtaken (x.catalog.before action) t
        (Catalog.sortBy (x.catalog.before action) (x.catalog.before action s.name)))
    (effect : ∀ n, pending action q.enabled n = true ↔ pending action p.enabled n = true ∧
      ¬Catalog.Reached (x.catalog.before action) (inTheWay x action s p.enabled) n) :
    Obeyed x action who p
      (Catalog.sortBy (x.catalog.before action) (x.catalog.before action s.name))
      (Catalog.LeadsTo (x.catalog.before action) s.name) (exec (invoke x action s who) q) := by
  have hself : pending action q.enabled s.name = true := by
    refine (effect s.name).mpr ⟨wanted, ?_⟩
    rintro ⟨u, hu, hleads⟩
    exact wf.before_acyclic action s.name (.head' (mem_inTheWay.mp hu).1 hleads)
  have ready : Ready x action s q.enabled := by
    refine ⟨hs, refusal?_eq_none_iff.mpr ⟨permitted s hs .refl wanted, hself⟩, fun n hn => ?_⟩
    by_contra hne
    obtain ⟨hpn, hnot⟩ := (effect n).mp (by simpa using hne)
    exact hnot ⟨n, mem_inTheWay.mpr ⟨hn, hpn⟩, .refl⟩
  obtain ⟨needsReboot, notices, hreply⟩ := obeys q.calls (x.call action s) rfl
  rw [exec_invoke, hreply]
  refine .changed (steps.tail (.changed ready trivial hreply)) clear fun n => ?_
  show pending action (applyChange action s.name q.enabled) n = true ↔ _
  rw [pending_applyChange (steps.nodup hp), Bool.and_eq_true, effect n, decide_eq_true_eq]
  constructor
  · rintro ⟨⟨hpn, hnot⟩, hne⟩
    exact ⟨hpn, fun hleads => ((leadsTo_iff_inTheWay closed hpn).mp hleads).elim hne hnot⟩
  · rintro ⟨hpn, hnot⟩
    have hway := mt (leadsTo_iff_inTheWay closed hpn).mpr hnot
    rw [not_or] at hway
    exact ⟨⟨hpn, hway.2⟩, hway.1⟩

/-- With a handler that obeys, and nothing else in the way, a change reaches everything pending at and
below the service, or fails on a service that is overtaken. -/
theorem obeyed_changeService (wf : x.catalog.WellFormed) (obeys : x.handler.Obeys action)
    (yes : x.assumeYes = true) (fuel : Nat) :
    ∀ (s : Service) (p : Progress), x.catalog.find? s.name = some s →
      x.catalog.height action s.name < fuel → p.enabled.Nodup →
      Closed x.catalog action p.enabled → Permitted x action p.enabled s.name →
      pending action p.enabled s.name = true →
      Obeyed x action who p
        (Catalog.sortBy (x.catalog.before action) (x.catalog.before action s.name))
        (Catalog.LeadsTo (x.catalog.before action) s.name)
        (exec (changeService x action fuel s who) p) := by
  induction fuel with
  | zero => exact fun _ _ _ h => absurd h (Nat.not_lt_zero _)
  | succ fuel ih =>
    intro s p hs hheight hp closed permitted wanted
    have href : refusal? x action s p.enabled = none :=
      refusal?_eq_none_iff.mpr ⟨permitted s hs .refl wanted, wanted⟩
    have hway : inTheWay x action s p.enabled = (Catalog.sortBy (x.catalog.before action)
        (x.catalog.before action s.name)).filter (pending action p.enabled) :=
      Catalog.sortBy_filter closed _
    have hloop : Obeyed x action who p (inTheWay x action s p.enabled)
        (Catalog.Reached (x.catalog.before action) (inTheWay x action s p.enabled))
        (exec (firstFailure (changeAlong x action fuel who) (inTheWay x action s p.enabled)) p) := by
      refine obeyed_changeAlong (fun hne => ?_) (fun n hn => ?_) (fun n hn => (mem_inTheWay.mp hn).2)
        (fun n hn => permitted.of_mem_before (mem_inTheWay.mp hn).1) hp closed
        (fun d q hd hn hq hclosed hpermitted hpend => ih d q hd ?_ hq hclosed hpermitted hpend)
      · obtain ⟨n, hn⟩ := List.exists_mem_of_ne_nil _ hne
        have := wf.height_lt (mem_inTheWay.mp hn).1
        omega
      · exact wf.has_of_mem_before (mem_inTheWay.mp hn).1
      · have := wf.height_lt (mem_inTheWay.mp hn).1
        omega
    rw [exec_changeService hs, href]
    show Obeyed _ _ _ _ _ _ (exec (changeAfter x action fuel s who _) p)
    rw [exec_changeAfter yes]
    generalize exec (firstFailure (changeAlong x action fuel who)
      (inTheWay x action s p.enabled)) p = result at hloop ⊢
    -- The loop has seen the pending names only; nothing else of the list can be overtaken.
    cases hloop with
    | changed steps clear effect =>
      refine obeyed_invoke wf obeys hs hp closed permitted wanted steps (fun t ht h => ?_) effect
      rw [← Catalog.overtaken_filter closed ht, ← hway] at h
      exact clear t ht h
    | overtaken steps known wanted' late =>
      rw [hway, Catalog.overtaken_filter closed wanted'] at late
      exact .overtaken steps known wanted' late

end Executor

end Subscription
