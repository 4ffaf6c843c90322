import Mathlib.Data.List.Nodup
import Subscription.Proofs.Catalog.Requirement

/-!
The order in which names are placed, described without the bound on the depth. `Placed` says how one
placement becomes another when the names of a list are visited in turn; the order of `sortBy` is what
it makes of the empty placement. Main statements: nothing is lost, nothing is placed twice, where there
is no circle every name comes after those that go before it, and names that never lead back to the
others can be left out beforehand.
-/

namespace Subscription.Catalog

/-- Visiting names in turn takes one placement to another. A name that is wanted and has not been
visited is placed behind what goes before it; any other name is passed over. -/
inductive Placed (before : Text → List Text) (wanted : List Text) :
    List Text → Placement → Placement → Prop
  | done (p : Placement) : Placed before wanted [] p p
  | pass {n : Text} {ns : List Text} {p q : Placement} (h : n ∈ wanted → n ∈ p.visited)
      (rest : Placed before wanted ns p q) : Placed before wanted (n :: ns) p q
  | place {n : Text} {ns : List Text} {p q r : Placement} (hw : n ∈ wanted) (hv : n ∉ p.visited)
      (priors : Placed before wanted (before n) { p with visited := n :: p.visited } q)
      (rest : Placed before wanted ns { q with order := q.order ++ [n] } r) :
      Placed before wanted (n :: ns) p r

/-- Every name stands after the wanted names that go before it. -/
def Ordered (before : Text → List Text) (wanted order : List Text) : Prop :=
  ∀ l₁ a l₂, order = l₁ ++ a :: l₂ → ∀ b ∈ before a, b ∈ wanted → b ∈ l₁

theorem append_singleton_eq {names l₁ l₂ : List Text} {n m : Text}
    (h : names ++ [n] = l₁ ++ m :: l₂) :
    (names = l₁ ∧ n = m) ∨ ∃ l₃, names = l₁ ++ m :: l₃ := by
  rcases l₂.eq_nil_or_concat with rfl | ⟨l₃, k, rfl⟩
  · obtain ⟨hl, hn⟩ := List.append_inj' h rfl
    exact Or.inl ⟨hl, List.head_eq_of_cons_eq hn⟩
  · rw [List.concat_eq_append, ← List.cons_append, ← List.append_assoc] at h
    exact Or.inr ⟨l₃, (List.append_inj' h rfl).1⟩

theorem Ordered.snoc {before : Text → List Text} {wanted order : List Text} {n : Text}
    (h : Ordered before wanted order) (hn : ∀ b ∈ before n, b ∈ wanted → b ∈ order) :
    Ordered before wanted (order ++ [n]) := by
  intro l₁ a l₂ hsplit b hb hw
  rcases append_singleton_eq hsplit with ⟨rfl, rfl⟩ | ⟨l₃, hl₃⟩
  · exact hn b hb hw
  · exact h l₁ a l₃ hl₃ b hb hw

namespace Placed

variable {before : Text → List Text} {wanted ns ms : List Text} {p q r : Placement}

theorem append (h : Placed before wanted ns p q) (h' : Placed before wanted ms q r) :
    Placed before wanted (ns ++ ms) p r := by
  induction h with
  | done p => exact h'
  | pass hn _ ih => exact .pass hn (ih h')
  | place hw hv priors _ _ ih => exact .place hw hv priors (ih h')

/-- What comes of a visit depends on nothing else. -/
theorem unique (h : Placed before wanted ns p q) (h' : Placed before wanted ns p r) : q = r := by
  induction h generalizing r with
  | done p => cases h'; rfl
  | pass hn _ ih =>
    cases h' with
    | pass _ rest' => exact ih rest'
    | place hw hv _ _ => exact absurd (hn hw) hv
  | place hw hv _ _ ihp ihr =>
    cases h' with
    | pass hn _ => exact absurd (hn hw) hv
    | place _ _ priors' rest' =>
      have hq := ihp priors'
      subst hq
      exact ihr rest'

theorem visited_subset (h : Placed before wanted ns p q) : p.visited ⊆ q.visited := by
  induction h with
  | done p => exact List.Subset.refl _
  | pass _ _ ih => exact ih
  | place _ _ _ _ ihp ihr =>
    intro m hm
    exact ihr (ihp (List.mem_cons_of_mem _ hm))

theorem mem_visited (h : Placed before wanted ns p q) {n : Text} (hn : n ∈ ns)
    (hw : n ∈ wanted) : n ∈ q.visited := by
  induction h with
  | done p => cases hn
  | pass hv rest ih =>
    rcases List.mem_cons.mp hn with rfl | hn
    · exact rest.visited_subset (hv hw)
    · exact ih hn
  | place _ _ priors rest _ ihr =>
    rcases List.mem_cons.mp hn with rfl | hn
    · exact rest.visited_subset (priors.visited_subset List.mem_cons_self)
    · exact ihr hn

/-- Only wanted names are visited. -/
theorem visited_wanted (h : Placed before wanted ns p q) {n : Text} (hn : n ∈ q.visited) :
    n ∈ p.visited ∨ n ∈ wanted := by
  induction h with
  | done p => exact Or.inl hn
  | pass _ _ ih => exact ih hn
  | place hw _ _ _ ihp ihr =>
    rcases ihr hn with hq | hn
    · rcases ihp hq with hm | hn
      · rcases List.mem_cons.mp hm with rfl | hm
        · exact Or.inr hw
        · exact Or.inl hm
      · exact Or.inr hn
    · exact Or.inr hn

/-- The names that are placed by a visit are those that it reaches for the first time. -/
theorem mem_order (h : Placed before wanted ns p q) {n : Text} :
    n ∈ q.order ↔ n ∈ p.order ∨ n ∈ q.visited ∧ n ∉ p.visited := by
  induction h with
  | done p => simp
  | pass _ _ ih => exact ih
  | @place m ms p q r _ hv priors rest ihp ihr =>
    have hpq := priors.visited_subset
    have hqr := rest.visited_subset
    simp only [List.mem_append, List.mem_singleton] at ihr
    simp only [List.mem_cons, not_or] at ihp
    by_cases hm : n = m
    · subst hm
      have hn : n ∈ r.visited := hqr (hpq List.mem_cons_self)
      simp [ihr, hn, hv]
    · have hsub : n ∈ p.visited → n ∈ q.visited := fun hn => hpq (List.mem_cons_of_mem _ hn)
      rw [ihr, ihp]
      simp only [hm, or_false, not_false_eq_true, true_and]
      constructor
      · rintro ((hp | ⟨hq, hp⟩) | ⟨hr, hq⟩)
        · exact Or.inl hp
        · exact Or.inr ⟨hqr hq, hp⟩
        · exact Or.inr ⟨hr, fun hp => hq (hsub hp)⟩
      · rintro (hp | ⟨hr, hp⟩)
        · exact Or.inl (Or.inl hp)
        · by_cases hq : n ∈ q.visited
          · exact Or.inl (Or.inr ⟨hq, hp⟩)
          · exact Or.inr ⟨hr, hq⟩

theorem nodup_order (h : Placed before wanted ns p q) (hp : p.order.Nodup)
    (hs : p.order ⊆ p.visited) : q.order.Nodup ∧ q.order ⊆ q.visited := by
  induction h with
  | done p => exact ⟨hp, hs⟩
  | pass _ _ ih => exact ih hp hs
  | @place m ms p q r _ hv priors rest ihp ihr =>
    obtain ⟨hq, hqs⟩ := ihp hp fun n hn => List.mem_cons_of_mem _ (hs hn)
    have hmq : m ∈ q.visited := priors.visited_subset List.mem_cons_self
    have hm : m ∉ q.order := by
      rw [priors.mem_order]
      rintro (hm | ⟨_, hm⟩)
      · exact hv (hs hm)
      · exact hm List.mem_cons_self
    apply ihr
    · exact List.nodup_append.mpr ⟨hq, by simp, by
        intro a ha b hb hab
        rw [List.mem_singleton.mp hb] at hab
        exact hm (hab ▸ ha)⟩
    · intro n hn
      rcases List.mem_append.mp hn with hn | hn
      · exact hqs hn
      · rw [List.mem_singleton.mp hn]
        exact hmq

theorem not_mem_order (h : Placed before wanted ns p q) {v : Text} (hv : v ∈ q.visited)
    (hout : v ∉ q.order) : v ∈ p.visited ∧ v ∉ p.order := by
  rw [h.mem_order, not_or] at hout
  refine ⟨?_, hout.1⟩
  by_contra hp
  exact hout.2 ⟨hv, hp⟩

/-- The names whose visit has not come to its end lead to all that is visited meanwhile. Where nothing
leads back to itself, a visit therefore never comes upon one of them, and has placed all that goes
before a name by the time it places the name. -/
theorem ordered (h : Placed before wanted ns p q) (acyclic : ∀ n, ¬LeadsBelow before n n)
    (hopen : ∀ v ∈ p.visited, v ∉ p.order → ∀ n ∈ ns, LeadsBelow before v n)
    (hp : Ordered before wanted p.order) : Ordered before wanted q.order := by
  induction h with
  | done p => exact hp
  | pass _ _ ih => exact ih (fun v hv hout n hn => hopen v hv hout n (List.mem_cons_of_mem _ hn)) hp
  | @place n ns p q r _ _ priors _ ihp ihr =>
    have hopen' : ∀ v ∈ n :: p.visited, v ∉ p.order → ∀ m ∈ before n, LeadsBelow before v m := by
      intro v hv hout m hm
      rcases List.mem_cons.mp hv with rfl | hv
      · exact .single hm
      · exact .tail (hopen v hv hout n List.mem_cons_self) hm
    have hq := ihp hopen' hp
    apply ihr
    · intro v hv hout m hm
      rw [List.mem_append, List.mem_singleton, not_or] at hout
      obtain ⟨hvp, hout'⟩ := priors.not_mem_order hv hout.1
      exact hopen v ((List.mem_cons.mp hvp).resolve_left hout.2) hout' m (List.mem_cons_of_mem n hm)
    · apply hq.snoc
      intro b hb hw
      by_contra hout
      obtain ⟨hvisited, hout'⟩ := priors.not_mem_order (priors.mem_visited hb hw) hout
      exact acyclic b (hopen' b hvisited hout' b hb)

theorem eq_of_not_wanted (h : Placed before wanted ns p q) (hns : ∀ n ∈ ns, n ∉ wanted) :
    q = p := by
  induction h with
  | done p => rfl
  | pass _ _ ih => exact ih fun n hn => hns n (List.mem_cons_of_mem _ hn)
  | place hw _ _ _ => exact absurd hw (hns _ List.mem_cons_self)

theorem leave_out {keep : Text → Bool} (h : Placed before wanted ns p q)
    (hk : ∀ n ∈ wanted, keep n) : Placed before wanted (ns.filter keep) p q := by
  induction h with
  | done p => exact .done p
  | @pass n _ _ _ hn _ ih =>
    cases hkn : keep n with
    | true => simpa [hkn] using Placed.pass hn ih
    | false => simpa [hkn] using ih
  | place hw hv priors _ _ ihr =>
    simpa [hk _ hw] using Placed.place hw hv priors ihr

/-- Names that lead to none but names of their kind can be left out of what is wanted. -/
theorem filter {keep : Text → Bool}
    (closed : ∀ a, keep a = false → ∀ b ∈ before a, keep b = false)
    (h : Placed before wanted ns p q) :
    Placed before (wanted.filter keep) ns ⟨p.visited.filter keep, p.order.filter keep⟩
      ⟨q.visited.filter keep, q.order.filter keep⟩ := by
  induction h with
  | done p => exact .done _
  | pass hn _ ih =>
    refine .pass (fun hw => ?_) ih
    obtain ⟨hw, hk⟩ := List.mem_filter.mp hw
    exact List.mem_filter.mpr ⟨hn hw, hk⟩
  | @place n ns p q r hw hv priors rest ihp ihr =>
    cases hk : keep n with
    | true =>
      refine .place (q := ⟨q.visited.filter keep, q.order.filter keep⟩)
        (List.mem_filter.mpr ⟨hw, hk⟩) (fun hm => hv (List.mem_filter.mp hm).1) ?_ ?_
      · simpa [hk] using ihp
      · simpa [hk] using ihr
    | false =>
      -- The visit reaches only names that are left out, so the filtered placement stands.
      have hsame := ihp.eq_of_not_wanted fun b hb hw => by
        simp [closed n hk b hb] at hw
      refine .pass (fun hw => by simp [hk] at hw) ?_
      simp only [List.filter_cons, hk, Bool.false_eq_true, if_false, Placement.mk.injEq] at hsame
      simpa [List.filter_append, hk, hsame.1, hsame.2] using ihr

end Placed

/-- The wanted names that have not been visited bound the depth of a visit. -/
def unvisited (wanted : List Text) (p : Placement) : Nat :=
  (wanted.toFinset \ p.visited.toFinset).card

theorem unvisited_le {wanted : List Text} {p q : Placement} (h : p.visited ⊆ q.visited) :
    unvisited wanted q ≤ unvisited wanted p := by
  apply Finset.card_le_card
  intro n hn
  simp only [Finset.mem_sdiff, List.mem_toFinset] at hn ⊢
  exact ⟨hn.1, fun hp => hn.2 (h hp)⟩

theorem unvisited_lt {wanted : List Text} {p : Placement} {n : Text} (hw : n ∈ wanted)
    (hv : n ∉ p.visited) :
    unvisited wanted { p with visited := n :: p.visited } < unvisited wanted p := by
  apply Finset.card_lt_card
  refine ⟨fun m hm => ?_, fun hsub => ?_⟩
  · simp only [List.toFinset_cons, Finset.mem_sdiff, Finset.mem_insert, List.mem_toFinset,
      not_or] at hm ⊢
    exact ⟨hm.1, hm.2.2⟩
  · have hn := hsub (Finset.mem_sdiff.mpr ⟨List.mem_toFinset.mpr hw, by simpa using hv⟩)
    simp at hn

theorem placed_foldl {before : Text → List Text} {wanted : List Text} {fuel : Nat}
    (visit : ∀ n p, n ∈ wanted → unvisited wanted p ≤ fuel →
      Placed before wanted [n] p (place before wanted fuel n p)) (ns : List Text) :
    ∀ p, unvisited wanted p ≤ fuel → Placed before wanted ns p
      (ns.foldl (fun p n => if n ∈ wanted then place before wanted fuel n p else p) p) := by
  induction ns with
  | nil => exact fun p _ => .done p
  | cons n ns ih =>
    intro p hp
    by_cases hw : n ∈ wanted
    · have hn := visit n p hw hp
      simp only [List.foldl_cons, hw, if_true]
      exact hn.append (ih _ ((unvisited_le hn.visited_subset).trans hp))
    · simp only [List.foldl_cons, hw, if_false]
      exact .pass (fun h => absurd h hw) (ih p hp)

theorem placed_place {before : Text → List Text} {wanted : List Text} (fuel : Nat) :
    ∀ n p, n ∈ wanted → unvisited wanted p ≤ fuel →
      Placed before wanted [n] p (place before wanted fuel n p) := by
  induction fuel with
  | zero =>
    intro n p hw hp
    refine .pass (fun _ => ?_) (.done p)
    -- When the fuel is used up, every wanted name has been visited.
    by_contra hv
    have := unvisited_lt hw hv
    omega
  | succ fuel ih =>
    intro n p hw hp
    by_cases hv : n ∈ p.visited
    · simp only [place, hv, if_true]
      exact .pass (fun _ => hv) (.done p)
    · have := unvisited_lt hw hv
      simp only [place, hv, if_false]
      exact .place hw hv (placed_foldl ih _ _ (by omega)) (.done _)

/-- The order of `sortBy` is what a visit of all the names makes of the empty placement. -/
theorem placed_sortBy (before : Text → List Text) (names : List Text) :
    ∃ visited, Placed before names names ⟨[], []⟩ ⟨visited, sortBy before names⟩ := by
  have hsize : unvisited names ⟨[], []⟩ ≤ names.length := by
    simpa [unvisited] using List.toFinset_card_le names
  have h := placed_foldl (@placed_place before names names.length) names ⟨[], []⟩ hsize
  have hsame : names.foldl (fun p n => if n ∈ names then place before names names.length n p else p)
      ⟨[], []⟩ = names.foldl (fun p n => place before names names.length n p) ⟨[], []⟩ :=
    List.foldl_ext _ _ _ fun p n hn => by simp [hn]
  rw [hsame] at h
  exact ⟨_, h⟩

@[simp] theorem mem_sortBy {before : Text → List Text} {names : List Text} {n : Text} :
    n ∈ sortBy before names ↔ n ∈ names := by
  obtain ⟨visited, h⟩ := placed_sortBy before names
  have horder := h.mem_order (n := n)
  simp only [List.not_mem_nil, not_false_eq_true, and_true, false_or] at horder
  rw [horder]
  constructor
  · intro hn
    exact (h.visited_wanted hn).resolve_left List.not_mem_nil
  · intro hn
    exact h.mem_visited hn hn

theorem nodup_sortBy (before : Text → List Text) (names : List Text) :
    (sortBy before names).Nodup := by
  obtain ⟨visited, h⟩ := placed_sortBy before names
  exact (h.nodup_order List.nodup_nil (List.Subset.refl _)).1

/-- Where nothing leads back to itself, every name comes after those of the list that go before it. -/
theorem ordered_sortBy {before : Text → List Text} (acyclic : ∀ n, ¬LeadsBelow before n n)
    (names : List Text) : Ordered before names (sortBy before names) := by
  obtain ⟨visited, h⟩ := placed_sortBy before names
  apply h.ordered acyclic
  · exact fun v hv => absurd hv List.not_mem_nil
  · intro l₁ a l₂ hsplit
    simp at hsplit

/-- Names that are left out, and lead to none but such names, can be left out before sorting or
after. -/
theorem sortBy_filter {before : Text → List Text} {keep : Text → Bool}
    (closed : ∀ a, keep a = false → ∀ b ∈ before a, keep b = false) (names : List Text) :
    sortBy before (names.filter keep) = (sortBy before names).filter keep := by
  obtain ⟨visited, h⟩ := placed_sortBy before names
  obtain ⟨visited', h'⟩ := placed_sortBy before (names.filter keep)
  have hrest : Placed before (names.filter keep) (names.filter keep) ⟨[], []⟩
      ⟨visited.filter keep, (sortBy before names).filter keep⟩ :=
    (h.filter closed).leave_out fun n hn => (List.mem_filter.mp hn).2
  exact congrArg Placement.order (h'.unique hrest)

end Subscription.Catalog
