import Subscription.Proofs.Executor.Alone
import Subscription.Proofs.Executor.Orderly

/-!
Services that are enabled one upon the other. When none of them had to be brought along, each was ready
in its turn: what it requires was enabled before it, and nothing enabled before it requires it. So in the
opposite order they are due to be disabled, and disabling them leaves what there was before, in its order.
-/

namespace Subscription.Executor

variable {x : Setting} {names enabled : List Text} {n : Text} {p q : Progress}

/-- Each of some names is ready to be enabled on top of those before it. -/
def Stacked (x : Setting) (enabled names : List Text) : Prop :=
  ∀ l₁ n l₂, names = l₁ ++ n :: l₂ →
    ∃ s, x.catalog.find? n = some s ∧ Ready x .enable s (enabled ++ l₁)

namespace Stacked

theorem cons {s : Service} (known : x.catalog.find? n = some s) (ready : Ready x .enable s enabled)
    (h : Stacked x (enabled ++ [n]) names) : Stacked x enabled (n :: names) := by
  intro l₁ m l₂ hsplit
  cases l₁ with
  | nil =>
    cases hsplit
    exact ⟨s, known, by rwa [List.append_nil]⟩
  | cons k l₁ =>
    rw [List.cons_append] at hsplit
    obtain ⟨rfl, hrest⟩ := List.cons.inj hsplit
    simpa using h l₁ m l₂ hrest

variable {l₁ l₂ : List Text}

theorem not_mem (h : Stacked x enabled (l₁ ++ n :: l₂)) : n ∉ enabled ++ l₁ := by
  obtain ⟨s, hs, ready⟩ := h l₁ n l₂ rfl
  obtain rfl := Catalog.name_of_find? hs
  simpa [pending] using ready.pending

theorem required (h : Stacked x enabled (l₁ ++ n :: l₂)) {m : Text}
    (hm : m ∈ x.catalog.requirementsOf n) : m ∈ enabled ++ l₁ := by
  obtain ⟨s, hs, ready⟩ := h l₁ n l₂ rfl
  obtain rfl := Catalog.name_of_find? hs
  have hclear : pending .enable (enabled ++ l₁) m = false := ready.clear m hm
  exact of_decide_eq_true (by simpa only [pending, decide_not, Bool.not_eq_false'] using hclear)

theorem disjoint (h : Stacked x enabled names) (hn : n ∈ names) : n ∉ enabled := by
  obtain ⟨l₁, l₂, rfl⟩ := List.append_of_mem hn
  exact fun hmem => h.not_mem (List.mem_append_left l₁ hmem)

theorem nodup_append (h : Stacked x enabled names) (hnodup : enabled.Nodup)
    (distinct : names.Nodup) : (enabled ++ names).Nodup := by
  refine List.nodup_append.mpr ⟨hnodup, distinct, fun a ha b hb hab => ?_⟩
  exact h.disjoint hb (hab ▸ ha)

/-- What requires one of the names and is enabled with them all stands above it. -/
theorem above (h : Stacked x enabled (l₁ ++ n :: l₂))
    (closed : ∀ m ∈ enabled, ∀ r ∈ x.catalog.requirementsOf m, r ∈ enabled) {m : Text}
    (hm : n ∈ x.catalog.requirementsOf m) (hthere : m ∈ enabled ++ (l₁ ++ n :: l₂)) : m ∈ l₂ := by
  have hnew := h.not_mem
  rcases List.mem_append.mp hthere with hmem | hmem
  · exact absurd (List.mem_append_left l₁ (closed m hmem n hm)) hnew
  · rcases List.mem_append.mp hmem with hmem | hmem
    · obtain ⟨k₁, k₂, rfl⟩ := List.append_of_mem hmem
      rw [List.append_assoc, List.cons_append] at h
      have hbelow := h.required hm
      rw [← List.append_assoc] at hnew
      exact absurd (List.mem_append_left _ hbelow) hnew
    · rcases List.mem_cons.mp hmem with rfl | hmem
      · exact absurd (h.required hm) hnew
      · exact hmem

/-- From the top down they are due to be disabled. -/
theorem due (h : Stacked x enabled names)
    (closed : ∀ m ∈ enabled, ∀ r ∈ x.catalog.requirementsOf m, r ∈ enabled)
    (distinct : names.Nodup) : Due x .disable (enabled ++ names) names.reverse where
  nodup := List.nodup_reverse.mpr distinct
  wanted n hn := by
    have hn := List.mem_reverse.mp hn
    obtain ⟨l₁, l₂, hsplit⟩ := List.append_of_mem hn
    obtain ⟨s, hs, -⟩ := h l₁ n l₂ hsplit
    exact ⟨s, hs, rfl, decide_eq_true (List.mem_append_right enabled hn)⟩
  inTurn l₁ n l₂ hsplit m hm hp := by
    have hnames : names = l₂.reverse ++ n :: l₁.reverse := by
      rw [← List.reverse_reverse names, hsplit]
      simp
    rw [hnames] at h hp
    have habove := h.above closed (Catalog.mem_dependentsOf.mp hm) (of_decide_eq_true hp)
    exact List.mem_reverse.mp habove

end Stacked

/-- A session without consent in which nothing fails has put its names one upon the other. -/
theorem stacked_of_changeAll (wf : x.catalog.WellFormed) (no : x.assumeYes = false)
    (known : ∀ n ∈ names, x.catalog.has n) (distinct : names.Nodup)
    (fresh : ∀ n ∈ names, n ∉ p.changed) (h : exec (changeAll x .enable names) p = (.ok (), q))
    (success : ∀ n, (n, .failure) ∉ q.tally.outcomes) :
    Stacked x p.enabled names ∧ q.enabled = p.enabled ++ names := by
  induction names generalizing p with
  | nil =>
    cases h
    exact ⟨fun l₁ n l₂ hsplit => by simp at hsplit, (List.append_nil _).symm⟩
  | cons n names ih =>
    obtain ⟨hnew, distinct⟩ := List.nodup_cons.mp distinct
    have hknown : ∀ m ∈ names, x.catalog.has m := fun m hm => known m (List.mem_cons_of_mem n hm)
    obtain ⟨⟨⟩, r, hturn, hrest⟩ := exec_bind_eq_ok.mp h
    have hgrows : Grows r q := by
      rw [← show (exec (changeAll x .enable names) r).2 = q from congrArg Prod.snd hrest]
      exact pervasive_grows.changeAll hknown r
    obtain ⟨s, hs, ready, henabled, hchanged⟩ := ready_of_change wf no (known n List.mem_cons_self)
      (fresh n List.mem_cons_self) hturn fun hn => success n (hgrows.outcomes.subset hn)
    have hfresh : ∀ m ∈ names, m ∉ r.changed := by
      intro m hm
      rw [hchanged, List.mem_append, List.mem_singleton, not_or]
      exact ⟨fresh m (List.mem_cons_of_mem n hm), fun hmn => hnew (hmn ▸ hm)⟩
    obtain ⟨hstacked, hq⟩ := ih hknown distinct hfresh hrest
    have henabled : r.enabled = p.enabled ++ [n] := henabled
    rw [henabled] at hstacked hq
    exact ⟨hstacked.cons hs ready, by rw [hq, List.append_assoc, List.singleton_append]⟩

/-- Disabling what is stacked from the top down leaves what there was before. -/
theorem exec_changeAll_reverse (obeys : x.handler.Obeys .disable) (wf : x.catalog.WellFormed)
    (h : Stacked x enabled names) (hnodup : enabled.Nodup)
    (closed : ∀ m ∈ enabled, ∀ r ∈ x.catalog.requirementsOf m, r ∈ enabled)
    (distinct : names.Nodup) (hp : p.enabled = enabled ++ names) :
    ∃ q new, exec (changeAll x .disable names.reverse) p = (.ok (), q) ∧
      Orderly x .disable names.reverse new p q ∧ q.enabled = enabled := by
  have hall : p.enabled.Nodup := hp ▸ h.nodup_append hnodup distinct
  have due : Due x .disable p.enabled names.reverse := hp ▸ h.due closed distinct
  obtain ⟨q, new, hexec, horderly⟩ := orderly_changeAll obeys due hall
  refine ⟨q, new, hexec, horderly, ?_⟩
  have hmem : ∀ n, n ∈ q.enabled ↔ n ∈ enabled ++ names ∧ n ∉ names := by
    intro n
    have hpend := horderly.pending n
    rw [hp] at hpend
    simpa only [pending, decide_eq_true_eq, List.mem_reverse] using hpend
  have hknown : ∀ n ∈ names.reverse, x.catalog.has n := fun n hn => by
    obtain ⟨s, hs, -⟩ := due.wanted n hn
    exact Catalog.has_of_find? hs
  have hmoves : Moves x .disable p (exec (changeAll x .disable names.reverse) p).2 :=
    moves_changeAll wf hknown hall
  rw [hexec] at hmoves
  calc q.enabled
      = (enabled ++ names).filter (· ∈ q.enabled) := hp ▸ hmoves.enabled_eq_filter hall
    _ = enabled.filter (· ∈ q.enabled) ++ names.filter (· ∈ q.enabled) := List.filter_append _ _
    _ = enabled ++ [] := by
        congr 1
        · refine List.filter_eq_self.mpr fun n hn => decide_eq_true ?_
          exact (hmem n).mpr ⟨List.mem_append_left names hn, fun hnames => h.disjoint hnames hn⟩
        · exact List.filter_eq_nil_iff.mpr fun n hn => by simp [hmem, hn]
    _ = enabled := List.append_nil _

end Subscription.Executor
