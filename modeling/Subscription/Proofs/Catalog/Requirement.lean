import Mathlib.Data.Finset.Card
import Mathlib.Logic.Relation
import Subscription.Catalog.Order
import Subscription.Operation.Action

/-!
What services need of each other. Enabling leads from a service to those it requires, disabling to
those that require it; `before` is the step of either kind. In a catalog that is well formed every
requirement is a service of the catalog and no chain of requirements comes back to its start, so that
each step of either kind goes down: `height` counts what still lies below a service.
-/

namespace Subscription.Catalog

/-- From one name to another by steps to what goes before, none included. -/
abbrev LeadsTo (before : Text → List Text) : Text → Text → Prop :=
  Relation.ReflTransGen fun a b => b ∈ before a

/-- From one name to another by at least one step to what goes before. -/
abbrev LeadsBelow (before : Text → List Text) : Text → Text → Prop :=
  Relation.TransGen fun a b => b ∈ before a

/-- A service needs itself, what it requires, what that requires, and so on. -/
abbrev Needs (c : Catalog) : Text → Text → Prop :=
  LeadsTo c.requirementsOf

/-- The services that have to be changed before a service. -/
def before (c : Catalog) : ServiceAction → Text → List Text
  | .enable => c.requirementsOf
  | .disable => c.dependentsOf

/-- The requirements of services are services, and lead to no circle. -/
structure WellFormed (c : Catalog) : Prop where
  defined : ∀ {n r : Text}, r ∈ c.requirementsOf n → c.has r
  acyclic : ∀ n, ¬LeadsBelow c.requirementsOf n n

theorem has_iff {c : Catalog} {n : Text} : c.has n ↔ ∃ s, c.find? n = some s :=
  Option.isSome_iff_exists

theorem has_of_find? {c : Catalog} {n : Text} {s : Service} (h : c.find? n = some s) : c.has n :=
  has_iff.mpr ⟨s, h⟩

theorem mem_names_of_has {c : Catalog} {n : Text} (h : c.has n) :
    n ∈ c.services.map (·.name) := by
  obtain ⟨s, hs⟩ := has_iff.mp h
  obtain ⟨hm, hn⟩ := find?_eq_some_iff.mp hs
  exact List.mem_map.mpr ⟨s, hm, hn⟩

theorem requirementsOf_of_find? {c : Catalog} {n : Text} {s : Service} (h : c.find? n = some s) :
    c.requirementsOf n = s.requiredServices := by
  simp [requirementsOf, h]

theorem has_of_mem_requirementsOf {c : Catalog} {n r : Text} (h : r ∈ c.requirementsOf n) :
    c.has n := by
  obtain ⟨s, hs, _⟩ := mem_requirementsOf.mp h
  exact has_of_find? hs

theorem leadsTo_dependentsOf {c : Catalog} {a b : Text} :
    LeadsTo c.dependentsOf a b ↔ c.Needs b a := by
  have hstep : (fun a b => b ∈ c.dependentsOf a) =
      Function.swap fun a b => b ∈ c.requirementsOf a := by
    funext a b
    exact propext mem_dependentsOf
  rw [LeadsTo, hstep]
  exact Relation.reflTransGen_swap

theorem leadsBelow_dependentsOf {c : Catalog} {a b : Text} :
    LeadsBelow c.dependentsOf a b ↔ LeadsBelow c.requirementsOf b a := by
  have hstep : (fun a b => b ∈ c.dependentsOf a) =
      Function.swap fun a b => b ∈ c.requirementsOf a := by
    funext a b
    exact propext mem_dependentsOf
  rw [LeadsBelow, hstep]
  exact Relation.transGen_swap

/-! ### Steps go down -/

open Classical in
/-- The number of services that lie below a name. -/
noncomputable def height (c : Catalog) (action : ServiceAction) (n : Text) : Nat :=
  ((c.services.map (·.name)).toFinset.filter fun m =>
    LeadsBelow (c.before action) n m).card

theorem height_le (c : Catalog) (action : ServiceAction) (n : Text) :
    c.height action n ≤ c.services.length := by
  classical
  calc c.height action n
      ≤ (c.services.map (·.name)).toFinset.card := Finset.card_filter_le _ _
    _ ≤ (c.services.map (·.name)).length := List.toFinset_card_le _
    _ = c.services.length := List.length_map _

namespace WellFormed

variable {c : Catalog}

theorem has_of_mem_before (wf : c.WellFormed) {action : ServiceAction} {n m : Text}
    (h : m ∈ c.before action n) : c.has m := by
  cases action with
  | enable => exact wf.defined h
  | disable => exact has_of_mem_requirementsOf (mem_dependentsOf.mp h)

theorem has_of_leadsTo (wf : c.WellFormed) (action : ServiceAction) {a b : Text}
    (h : LeadsTo (c.before action) a b) (ha : c.has a) : c.has b := by
  cases Relation.ReflTransGen.cases_tail h with
  | inl hab => exact hab ▸ ha
  | inr hlast => exact wf.has_of_mem_before hlast.choose_spec.2

theorem before_acyclic (wf : c.WellFormed) (action : ServiceAction) (n : Text) :
    ¬LeadsBelow (c.before action) n n := by
  cases action with
  | enable => exact wf.acyclic n
  | disable => exact fun h => wf.acyclic n (leadsBelow_dependentsOf.mp h)

theorem height_lt (wf : c.WellFormed) {action : ServiceAction} {n m : Text}
    (h : m ∈ c.before action n) : c.height action m < c.height action n := by
  classical
  apply Finset.card_lt_card
  refine ⟨fun k hk => ?_, fun hsub => ?_⟩
  · simp only [Finset.mem_filter] at hk ⊢
    exact ⟨hk.1, Relation.TransGen.head h hk.2⟩
  · have hm := hsub (Finset.mem_filter.mpr
      ⟨List.mem_toFinset.mpr (mem_names_of_has (wf.has_of_mem_before h)), .single h⟩)
    exact wf.before_acyclic action m (Finset.mem_filter.mp hm).2

end WellFormed

end Subscription.Catalog
