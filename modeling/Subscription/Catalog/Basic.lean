import Subscription.Catalog.Service

/-!
The catalog: the services in a fixed order, no two of one name. Names are matched exactly, letter
case included.
-/

namespace Subscription

/-- The services that exist, each under its own name. -/
structure Catalog where
  services : List Service
  distinct : (services.map (·.name)).Nodup

namespace Catalog

def firstRepeat (seen : List Text) : List Text → Option Text
  | [] => none
  | n :: ns => if n ∈ seen then some n else firstRepeat (n :: seen) ns

theorem firstRepeat_eq_none_iff {seen ns : List Text} :
    firstRepeat seen ns = none ↔ ns.Nodup ∧ ∀ n ∈ ns, n ∉ seen := by
  induction ns generalizing seen with
  | nil => simp [firstRepeat]
  | cons n ns ih =>
    by_cases h : n ∈ seen
    · simp [firstRepeat, h]
    · simp only [firstRepeat, h, if_false, ih, List.nodup_cons, List.mem_cons]
      constructor
      · rintro ⟨hd, hn⟩
        exact ⟨⟨fun hm => hn n hm (Or.inl rfl), hd⟩, fun m hm => hm.elim (fun e => e ▸ h)
          fun hm hs => hn m hm (Or.inr hs)⟩
      · rintro ⟨⟨hn, hd⟩, hs⟩
        exact ⟨hd, fun m hm => not_or.2 ⟨fun e => hn (e ▸ hm), hs m (Or.inr hm)⟩⟩

/-- The catalog of some services; fails with the first name that is used twice. -/
def ofServices (services : List Service) : Except Text Catalog :=
  match h : firstRepeat [] (services.map (·.name)) with
  | some name => .error name
  | none => .ok ⟨services, (firstRepeat_eq_none_iff.1 h).1⟩

def find? (c : Catalog) (name : Text) : Option Service :=
  c.services.find? (·.name = name)

theorem name_of_find? {c : Catalog} {name : Text} {s : Service} (h : c.find? name = some s) :
    s.name = name := by
  simpa using List.find?_some h

/-- A service is found under its own name, and no other one is. -/
theorem find?_eq_some_iff {c : Catalog} {name : Text} {s : Service} :
    c.find? name = some s ↔ s ∈ c.services ∧ s.name = name := by
  constructor
  · exact fun h => ⟨List.mem_of_find?_eq_some h, name_of_find? h⟩
  · rintro ⟨hm, hn⟩
    obtain ⟨services, distinct⟩ := c
    simp only [find?]
    induction services with
    | nil => simp at hm
    | cons t ts ih =>
      simp only [List.map_cons, List.nodup_cons] at distinct
      rcases List.mem_cons.1 hm with rfl | hm
      · simp [hn]
      · have ht : t.name ≠ name := fun e =>
          distinct.1 (List.mem_map.2 ⟨s, hm, hn.trans e.symm⟩)
        simpa [ht] using ih distinct.2 hm

def has (c : Catalog) (name : Text) : Bool :=
  (c.find? name).isSome

def list (c : Catalog) (includeBeta : Bool) : List Service :=
  c.services.filter fun s => includeBeta || !s.isBeta

def names (c : Catalog) (includeBeta : Bool) : List Text :=
  (c.list includeBeta).map (·.name)

def isAvailable (c : Catalog) (name series : Text) : Bool :=
  (c.find? name).any (·.availableOn series)

def requirementsOf (c : Catalog) (name : Text) : List Text :=
  ((c.find? name).map (·.requiredServices)).getD []

def dependentsOf (c : Catalog) (name : Text) : List Text :=
  (c.services.filter (·.requires name)).map (·.name)

theorem mem_requirementsOf {c : Catalog} {name r : Text} :
    r ∈ c.requirementsOf name ↔ ∃ s, c.find? name = some s ∧ r ∈ s.requiredServices := by
  cases h : c.find? name <;> simp [requirementsOf, h]

theorem mem_dependentsOf {c : Catalog} {name d : Text} :
    d ∈ c.dependentsOf name ↔ name ∈ c.requirementsOf d := by
  rw [mem_requirementsOf]
  simp only [dependentsOf, List.mem_map, List.mem_filter, Service.requires, decide_eq_true_eq,
    find?_eq_some_iff]
  exact ⟨fun ⟨s, ⟨hm, hr⟩, hn⟩ => ⟨s, ⟨hm, hn⟩, hr⟩, fun ⟨s, ⟨hm, hn⟩, hr⟩ => ⟨s, ⟨hm, hr⟩, hn⟩⟩

def defaults (c : Catalog) : List Text :=
  (c.services.filter (·.enableByDefault)).map (·.name)

end Catalog

end Subscription
