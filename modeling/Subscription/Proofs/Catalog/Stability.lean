import Subscription.Proofs.Catalog.Accepted
import Subscription.Proofs.Catalog.Ordering

/-!
Orders that stay with what they are given. A visit reaches only what its names lead to, and places
nothing before the names that it is done with. Main statement: whatever the catalog, circles and
requirements without a service included, each name is placed once; where one is placed ahead of a name
that was met earlier, a name that was met no later leads to it.
-/

namespace Subscription.Catalog

abbrev LeadsWithin (before : Text → List Text) (names : List Text) : Text → Text → Prop :=
  Relation.TransGen fun a b => b ∈ before a ∧ b ∈ names

/-! ### First places -/

theorem mem_of_idxOf_le {l₁ l₂ : List Text} {a b : Text} (ha : a ∈ l₁)
    (h : (l₁ ++ l₂).idxOf b ≤ (l₁ ++ l₂).idxOf a) : b ∈ l₁ := by
  by_contra hb
  have hlt := List.idxOf_lt_length_of_mem ha
  rw [List.idxOf_append_of_mem ha, List.idxOf_append_of_notMem hb] at h
  omega

theorem idxOf_le_of_mem {l₁ l₂ : List Text} {a c : Text} (ha : a ∉ l₁) (hc : c ∈ l₁ ++ [a]) :
    (l₁ ++ a :: l₂).idxOf c ≤ (l₁ ++ a :: l₂).idxOf a := by
  rcases List.mem_append.mp hc with hc | hc
  · have hlt := List.idxOf_lt_length_of_mem hc
    rw [List.idxOf_append_of_notMem ha, List.idxOf_append_of_mem hc]
    omega
  · rw [List.mem_singleton.mp hc]

/-! ### What a visit reaches -/

namespace Placed

variable {before : Text → List Text} {wanted ns ms : List Text} {p q r : Placement}

/-- A visit of two lists is a visit of the first one and then of the second. -/
theorem of_append (h : Placed before wanted (ns ++ ms) p r) :
    ∃ q, Placed before wanted ns p q ∧ Placed before wanted ms q r := by
  induction ns generalizing p with
  | nil => exact ⟨p, .done p, h⟩
  | cons n ns ih =>
    cases h with
    | pass hn rest =>
      obtain ⟨q, hns, hms⟩ := ih rest
      exact ⟨q, .pass hn hns, hms⟩
    | place hw hv priors rest =>
      obtain ⟨q, hns, hms⟩ := ih rest
      exact ⟨q, .place hw hv priors hns, hms⟩

theorem order_prefix (h : Placed before wanted ns p q) : p.order <+: q.order := by
  induction h with
  | done p => exact List.prefix_refl _
  | pass _ _ ih => exact ih
  | place _ _ _ _ ihp ihr => exact ihp.trans ((List.prefix_append _ _).trans ihr)

/-- What a visit reaches for the first time is one of its names, or a wanted name that a wanted one of
them leads to. -/
theorem reaches (h : Placed before wanted ns p q) {n : Text} (hq : n ∈ q.visited)
    (hp : n ∉ p.visited) : n ∈ ns ∨ ∃ m ∈ ns, m ∈ wanted ∧ LeadsWithin before wanted m n := by
  induction h with
  | done p => exact absurd hq hp
  | pass _ _ ih =>
    refine (ih hq hp).imp (List.mem_cons_of_mem _) ?_
    rintro ⟨m, hm, hleads⟩
    exact ⟨m, List.mem_cons_of_mem _ hm, hleads⟩
  | @place k ns p q r hw _ priors _ ihp ihr =>
    by_cases hn : n ∈ q.visited
    · by_cases hk : n = k
      · exact Or.inl (hk ▸ List.mem_cons_self)
      · -- It is reached below `k`, so that the chain starts with a step from `k`.
        have hfresh : n ∉ k :: p.visited := by simp [hk, hp]
        have hwanted : n ∈ wanted := (priors.visited_wanted hn).resolve_left hfresh
        refine Or.inr ⟨k, List.mem_cons_self, hw, ?_⟩
        rcases ihp hn hfresh with hmem | ⟨m, hm, hmw, hleads⟩
        · exact .single ⟨hmem, hwanted⟩
        · exact .head ⟨hm, hmw⟩ hleads
    · refine (ihr hq hn).imp (List.mem_cons_of_mem _) ?_
      rintro ⟨m, hm, hleads⟩
      exact ⟨m, List.mem_cons_of_mem _ hm, hleads⟩

end Placed

/-! ### Stable orders -/

/-- A list that arranges names by what goes before them. It comes of a visit, however deep that goes; it
has each name once; and it puts a name ahead of one that was met earlier only where a name that was met
no later leads to it. -/
structure Arranges (before : Text → List Text) (names order : List Text) : Prop where
  visited : ∃ visited, Placed before names names ⟨[], []⟩ ⟨visited, order⟩
  nodup : order.Nodup
  mem_iff : ∀ n, n ∈ order ↔ n ∈ names
  stable : ∀ a b, names.idxOf a < names.idxOf b → order.idxOf b < order.idxOf a →
    ∃ c ∈ names, names.idxOf c ≤ names.idxOf a ∧ LeadsWithin before names c b

/-- What is placed before a name was met no later, or is led to by a name that was. -/
theorem stable_sortBy {before : Text → List Text} {names : List Text} {a b : Text}
    (hmet : names.idxOf a < names.idxOf b)
    (hplaced : (sortBy before names).idxOf b < (sortBy before names).idxOf a) :
    ∃ c ∈ names, names.idxOf c ≤ names.idxOf a ∧ LeadsWithin before names c b := by
  obtain ⟨visited, h⟩ := placed_sortBy before names
  have ha : a ∈ names := List.idxOf_lt_length_iff.mp (hmet.trans_le List.idxOf_le_length)
  obtain ⟨l₁, l₂, hsplit, hfirst⟩ := List.eq_append_cons_of_mem ha
  -- The visit of the names up to `a` places `a`, and so it places all that stands ahead of `a`.
  obtain ⟨q, hupto, hrest⟩ : ∃ q, Placed before names (l₁ ++ [a]) ⟨[], []⟩ q ∧
      Placed before names l₂ q ⟨visited, sortBy before names⟩ :=
    Placed.of_append (by simpa [← hsplit] using h)
  have haq : a ∈ q.order :=
    hupto.mem_order.mpr (Or.inr ⟨hupto.mem_visited (by simp) ha, List.not_mem_nil⟩)
  have hbq : b ∈ q.order := by
    obtain ⟨later, horder⟩ : q.order <+: sortBy before names := hrest.order_prefix
    rw [← horder] at hplaced
    exact mem_of_idxOf_le haq hplaced.le
  have hbv : b ∈ q.visited := by simpa using (hupto.mem_order.mp hbq)
  have early : ∀ c ∈ l₁ ++ [a], names.idxOf c ≤ names.idxOf a := fun c hc => by
    rw [hsplit]
    exact idxOf_le_of_mem hfirst hc
  rcases hupto.reaches hbv List.not_mem_nil with hb | ⟨c, hc, hcw, hleads⟩
  · have := early b hb
    omega
  · exact ⟨c, hcw, early c hc, hleads⟩

theorem arranges_sortBy (before : Text → List Text) (names : List Text) :
    Arranges before names (sortBy before names) where
  visited := placed_sortBy before names
  nodup := nodup_sortBy before names
  mem_iff _ := mem_sortBy
  stable _ _ := stable_sortBy

/-- Both orders of a catalog arrange the names that they are given, whatever the catalog. Where no
requirement leads back to its start, each name comes after those of the list that go before it. -/
theorem orders_are_stable (c : Catalog) (names : List Text) :
    Arranges c.requirementsOf names (c.enableOrder names) ∧
    Arranges c.dependentsOf names (c.disableOrder names) ∧
    ((∀ n, ¬LeadsBelow c.requirementsOf n n) →
      Ordered c.requirementsOf names (c.enableOrder names) ∧
      Ordered c.dependentsOf names (c.disableOrder names)) := by
  refine ⟨arranges_sortBy _ _, arranges_sortBy _ _, fun acyclic => ⟨?_, ?_⟩⟩
  · exact ordered_sortBy acyclic names
  · exact ordered_sortBy (fun n h => acyclic n (leadsBelow_dependentsOf.mp h)) names

def ring : Catalog where
  services := [plainService "jammy" "a" ["b", "z"], plainService "jammy" "b" ["a"],
    plainService "jammy" "c" []]
  distinct := by decide

/-- In the ring `b` is placed ahead of `c`, which was met earlier, since `a` was met earlier still; in
the pair no requirement leads back. -/
theorem orders_are_stable_ring :
    (let names : List Text := ["a", "c", "b"]
    ring.enableOrder names = ["b", "a", "c"] ∧
      ∃ d ∈ names, names.idxOf d ≤ names.idxOf ("c" : Text) ∧
        LeadsWithin ring.requirementsOf names d "b") ∧
    Ordered pair.requirementsOf ["a", "b"] (pair.enableOrder ["a", "b"]) :=
  ⟨⟨by decide, (orders_are_stable ring _).1.stable "c" "b" (by decide) (by decide)⟩,
    ((orders_are_stable pair _).2.2 (wellFormed_of_ofDocument ofDocument_pair).acyclic).1⟩

end Subscription.Catalog
