import Subscription.Catalog.Load
import Subscription.Proofs.Catalog.Search
import Subscription.Proofs.Json.Shape

/-!
Services that fit together. The checks across the entries of a document find nothing wrong if and
only if names differ, requirements are among the names, and no requirement leads back to its start;
so a catalog that comes from a document is well formed.
-/

namespace Subscription.Catalog

/-- One name requires another: a service of that name lists it. -/
def Requires (services : List Service) (a b : Text) : Prop :=
  ∃ s ∈ services, s.name = a ∧ b ∈ s.requiredServices

/-- No two services share a name, and what they require are services that lead to no circle. -/
structure FitTogether (services : List Service) : Prop where
  distinct : (services.map (·.name)).Nodup
  defined : ∀ s ∈ services, ∀ r ∈ s.requiredServices, r ∈ services.map (·.name)
  acyclic : ∀ n, ¬Relation.TransGen (Requires services) n n

/-! ### The checks across the entries -/

theorem repeatedNames_eq_nil_iff {seen ns : List Text} :
    repeatedNames seen ns = [] ↔ firstRepeat seen ns = none := by
  induction ns generalizing seen with
  | nil => simp [repeatedNames, firstRepeat]
  | cons n ns ih =>
    by_cases h : n ∈ seen
    · simp [repeatedNames, firstRepeat, h]
    · simp [repeatedNames, firstRepeat, h, ih]

theorem requirementProblems_eq_nil_iff {names : List Text} {s : Service} :
    requirementProblems names s = [] ↔ ∀ r ∈ s.requiredServices, r ≠ s.name ∧ r ∈ names := by
  rw [requirementProblems, List.flatMap_eq_nil_iff]
  apply forall₂_congr
  intro r _
  by_cases hself : r = s.name
  · simp [hself]
  · by_cases hin : r ∈ names <;> simp [hself, hin]

variable {c : Catalog}

theorem requires_iff {n r : Text} : Requires c.services n r ↔ r ∈ c.requirementsOf n := by
  rw [mem_requirementsOf]
  constructor
  · rintro ⟨s, hs, hn, hr⟩
    exact ⟨s, find?_eq_some_iff.mpr ⟨hs, hn⟩, hr⟩
  · rintro ⟨s, hs, hr⟩
    obtain ⟨hm, hn⟩ := find?_eq_some_iff.mp hs
    exact ⟨s, hm, hn, hr⟩

theorem otherRequirements_eq {n : Text} :
    otherRequirements c.services n = (c.requirementsOf n).filter (· ≠ n) := by
  let d : Catalog := ⟨c.services.reverse, by simpa using c.distinct⟩
  have hfind : c.services.reverse.find? (·.name = n) = c.find? n := by
    apply Option.ext
    intro s
    have hd : d.find? n = some s ↔ s ∈ c.services.reverse ∧ s.name = n := find?_eq_some_iff
    rw [find?_eq_some_iff]
    exact hd.trans (by rw [List.mem_reverse])
  rw [otherRequirements, hfind]
  cases h : c.find? n <;> simp [requirementsOf, h]

theorem mem_otherRequirements {n r : Text} :
    r ∈ otherRequirements c.services n ↔ Requires c.services n r ∧ r ≠ n := by
  rw [requires_iff, otherRequirements_eq, List.mem_filter, decide_eq_true_eq]

theorem crossProblems_eq_nil_iff {services : List Service} :
    crossProblems services = [] ↔ FitTogether services := by
  simp only [crossProblems, List.append_eq_nil_iff, List.map_eq_nil_iff, List.flatMap_eq_nil_iff,
    repeatedNames_eq_nil_iff, firstRepeat_eq_none_iff, requirementProblems_eq_nil_iff,
    cycles_eq_nil_iff]
  constructor
  · rintro ⟨⟨⟨distinct, _⟩, hreq⟩, acyclic⟩
    refine ⟨distinct, fun s hs r hr => (hreq s hs r hr).2, fun n hloop => acyclic n ?_⟩
    apply Relation.TransGen.mono _ n n hloop
    rintro a b ⟨s, hs, rfl, hb⟩
    exact (mem_otherRequirements (c := ⟨services, distinct⟩)).mpr
      ⟨⟨s, hs, rfl, hb⟩, (hreq s hs b hb).1⟩
  · intro fit
    refine ⟨⟨⟨fit.distinct, by simp⟩, fun s hs r hr => ⟨?_, fit.defined s hs r hr⟩⟩, ?_⟩
    · rintro rfl
      exact fit.acyclic s.name (.single ⟨s, hs, rfl, hr⟩)
    · intro n hloop
      apply fit.acyclic n
      apply Relation.TransGen.mono _ n n hloop
      intro a b hb
      exact ((mem_otherRequirements (c := ⟨services, fit.distinct⟩)).mp hb).1

/-! ### Catalogs from documents -/

theorem FitTogether.wellFormed (fit : FitTogether c.services) : c.WellFormed where
  defined hr := by
    obtain ⟨s, hs, _, hrs⟩ := requires_iff.mpr hr
    obtain ⟨t, ht, hn⟩ := List.mem_map.mp (fit.defined s hs _ hrs)
    exact has_of_find? (find?_eq_some_iff.mpr ⟨ht, hn⟩)
  acyclic n hloop := fit.acyclic n (Relation.TransGen.mono (fun _ _ => requires_iff.mpr) n n hloop)

theorem build_eq_ok {services : List Service} (distinct : (services.map (·.name)).Nodup) :
    build services = .ok ⟨services, distinct⟩ := by
  have hnone : firstRepeat [] (services.map (·.name)) = none :=
    firstRepeat_eq_none_iff.mpr ⟨distinct, by simp⟩
  unfold build ofServices
  split
  · next h => simp [hnone] at h
  · rfl

/-- A document is accepted when every entry can be read and the services fit together. -/
theorem readDocument_eq_ok {document : Json} {services : List Service} :
    readDocument document = .ok services ↔
      ∃ entries, document.get? "services" = some (.array entries) ∧
        readEntries 0 entries = (services, []) ∧ FitTogether services := by
  constructor
  · intro h
    unfold readDocument at h
    split at h
    · cases h
    · next entries hentries =>
      obtain ⟨v, hv, hitems⟩ := Option.bind_eq_some_iff.mp hentries
      rw [Json.items?_eq_some_iff.mp hitems] at hv
      cases hread : readEntries 0 entries with
      | mk read problems =>
        simp only [hread] at h
        split at h
        · next hnil =>
          cases h
          obtain ⟨rfl, hcross⟩ := List.append_eq_nil_iff.mp hnil
          exact ⟨entries, hv, hread, crossProblems_eq_nil_iff.mp hcross⟩
        · cases h
  · rintro ⟨entries, hentries, hread, fit⟩
    simp [readDocument, hentries, hread, Json.items?, crossProblems_eq_nil_iff.mpr fit]

theorem services_of_build {services : List Service} (h : build services = .ok c) :
    c.services = services := by
  unfold build ofServices at h
  split at h
  · cases h
  · cases h
    rfl

/-- A catalog that comes from a document is well formed. -/
theorem wellFormed_of_ofDocument {document : Json} (h : ofDocument document = .ok c) :
    c.WellFormed := by
  unfold ofDocument at h
  split at h
  · next services hread =>
    obtain ⟨_, _, _, fit⟩ := readDocument_eq_ok.mp hread
    apply FitTogether.wellFormed
    rw [services_of_build h]
    exact fit
  · cases h

/-! ### Plain services -/

def plainService (series name : Text) (requirements : List Text) : Service :=
  { name := name, title := name, description := name, helpText := name,
    availability := [(series, true)], isBeta := false, enableByDefault := false,
    requiredServices := requirements, rebootOnEnable := false, containerSupported := true }

def plainEntry (series name : Text) (requirements : List Text) : Json :=
  .object [("name", .string name), ("title", .string name), ("description", .string name),
    ("help_text", .string name), ("available_by_release", .object [(series, .bool true)]),
    ("is_beta", .bool false), ("enable_by_default", .bool false),
    ("required_services", .ofStrings requirements), ("reboot_on_enable", .bool false),
    ("container_supported", .bool true)]

def documentOf (entries : List Json) : Json :=
  .object [("services", .array entries)]

/-- Two services, of which `a` requires `b`. -/
def pairDocument : Json :=
  documentOf [plainEntry "jammy" "a" ["b"], plainEntry "jammy" "b" []]

def pair : Catalog where
  services := [plainService "jammy" "a" ["b"], plainService "jammy" "b" []]
  distinct := by decide

theorem ofDocument_pair : ofDocument pairDocument = .ok pair := rfl

end Subscription.Catalog
