import Subscription.Proofs.Catalog.Accepted

/-!
Which documents are accepted. `Describes` says what an entry holds for a service, field by field, and
`FitTogether` what has to be true of all of them. Main statement: a document is accepted if and only if
its entries describe services that fit together, and those services are what is read.
-/

namespace Subscription

namespace Characters

theorem dropEndBlanks_eq_nil_iff {cs : List Char} :
    dropEndBlanks cs = [] ↔ ∀ ch ∈ cs, isBlank ch := by
  simp [dropEndBlanks, List.dropWhile_eq_nil_iff]

theorem trim_eq_empty_iff {s : String} : trim s = "" ↔ ∀ ch ∈ s.toList, isBlank ch := by
  rw [trim, String.ofList_eq_empty_iff, dropEndBlanks_eq_nil_iff]
  constructor
  · intro h ch hch
    rw [← List.takeWhile_append_dropWhile (p := isBlank) (l := s.toList)] at hch
    rcases List.mem_append.mp hch with hch | hch
    · exact List.mem_takeWhile_imp hch
    · exact h ch hch
  · intro h ch hch
    exact h ch ((List.dropWhile_sublist _).subset hch)

end Characters

namespace Catalog

def Filled (t : Text) : Prop :=
  ∃ ch ∈ t.toString.toList, Characters.isBlank ch = false

def ofAvailability (availability : List (Text × Bool)) : Json :=
  .object (availability.map fun a => (a.1, .bool a.2))

/-- An entry holds the ten fields of a service: four texts that are not blank, four flags, a map from
series to flags, and a list of names. Any other field is free. -/
structure Describes (entry : Json) (s : Service) : Prop where
  name : entry.get? "name" = some (.string s.name) ∧ Filled s.name
  title : entry.get? "title" = some (.string s.title) ∧ Filled s.title
  description : entry.get? "description" = some (.string s.description) ∧ Filled s.description
  helpText : entry.get? "help_text" = some (.string s.helpText) ∧ Filled s.helpText
  availability : entry.get? "available_by_release" = some (ofAvailability s.availability)
  isBeta : entry.get? "is_beta" = some (.bool s.isBeta)
  enableByDefault : entry.get? "enable_by_default" = some (.bool s.enableByDefault)
  requiredServices : entry.get? "required_services" = some (.ofStrings s.requiredServices)
  rebootOnEnable : entry.get? "reboot_on_enable" = some (.bool s.rebootOnEnable)
  containerSupported : entry.get? "container_supported" = some (.bool s.containerSupported)

/-! ### Entries -/

@[simp] theorem readText?_eq_some_iff {v : Json} {t : Text} :
    readText? v = some t ↔ v = .string t ∧ Filled t := by
  have hfilled : Characters.trim t.toString ≠ "" ↔ Filled t := by
    rw [Ne, Characters.trim_eq_empty_iff]
    simp [Filled]
  rw [readText?, Option.filter_eq_some_iff, Json.string?_eq_some_iff, decide_eq_true_eq, hfilled]

@[simp] theorem readAvailability?_eq_some_iff {v : Json} {availability : List (Text × Bool)} :
    readAvailability? v = some availability ↔ v = ofAvailability availability := by
  have hmember : ∀ (f : Text × Json) (a : Text × Bool),
      (f.2.bool?.map fun b => (f.1, b)) = some a ↔ f = (a.1, .bool a.2) := by
    rintro ⟨key, value⟩ ⟨series, flag⟩
    cases value <;> simp [Json.bool?, and_comm]
  rw [readAvailability?, Option.bind_eq_some_iff]
  simp only [Json.fields?_eq_some_iff, Json.mapM_eq_some_iff hmember]
  constructor
  · rintro ⟨fields, rfl, rfl⟩
    rfl
  · rintro rfl
    exact ⟨_, rfl, rfl⟩

/-- A field is read when what it holds determines the value. -/
theorem readField?_eq_some_iff {α : Type} {read : Json → Option α} {form : α → Json}
    {Accepts : α → Prop} (h : ∀ v a, read v = some a ↔ v = form a ∧ Accepts a)
    {fields : List (Text × Json)} {key : Text} {a : α} :
    readField? fields key read = some a ↔
      (Json.object fields).get? key = some (form a) ∧ Accepts a := by
  have hget : (Json.object fields).get? key = Json.lookup fields key := rfl
  rw [readField?, Option.bind_eq_some_iff, hget]
  constructor
  · rintro ⟨v, hv, hread⟩
    obtain ⟨rfl, ha⟩ := (h v a).mp hread
    exact ⟨hv, ha⟩
  · rintro ⟨hv, ha⟩
    exact ⟨form a, hv, (h _ a).mpr ⟨rfl, ha⟩⟩

/-- The fields give a service if and only if they are those of an entry that describes it. -/
theorem readFields?_eq_some_iff {fields : List (Text × Json)} {s : Service} :
    readFields? fields = some s ↔ Describes (.object fields) s := by
  have htext := @readField?_eq_some_iff _ readText? .string Filled (by simp) fields
  have hflag := @readField?_eq_some_iff _ Json.bool? .bool (fun _ => True) (by simp) fields
  have hnames := @readField?_eq_some_iff _ Json.strings? .ofStrings (fun _ => True) (by simp) fields
  have hmap := @readField?_eq_some_iff _ readAvailability? ofAvailability (fun _ => True) (by simp)
    fields
  simp only [readFields?, Option.bind_eq_bind, Option.bind_eq_some_iff, Option.pure_def,
    Option.some.injEq, htext, hflag, hnames, hmap, and_true]
  constructor
  · rintro ⟨name, hname, title, htitle, description, hdescription, helpText, hhelp, availability,
      havailability, isBeta, hbeta, enableByDefault, hdefault, requiredServices, hrequired,
      rebootOnEnable, hreboot, containerSupported, hcontainer, rfl⟩
    exact ⟨hname, htitle, hdescription, hhelp, havailability, hbeta, hdefault, hrequired, hreboot,
      hcontainer⟩
  · intro h
    exact ⟨s.name, h.name, s.title, h.title, s.description, h.description, s.helpText, h.helpText,
      s.availability, h.availability, s.isBeta, h.isBeta, s.enableByDefault, h.enableByDefault,
      s.requiredServices, h.requiredServices, s.rebootOnEnable, h.rebootOnEnable,
      s.containerSupported, h.containerSupported, rfl⟩

theorem missing_eq_nil_iff {α : Type} {value : Option α} {problem : Problem} :
    missing value problem = [] ↔ ∃ a, value = some a := by
  rw [← Option.isSome_iff_exists]
  cases h : value.isSome <;> simp [missing, h]

theorem readFields?_of_fieldProblems {index : Number} {fields : List (Text × Json)}
    (h : fieldProblems index fields = []) : ∃ s, readFields? fields = some s := by
  simp only [fieldProblems, textFields, flagFields, List.flatMap_cons, List.flatMap_nil,
    List.append_nil, List.append_eq_nil_iff, missing_eq_nil_iff] at h
  obtain ⟨⟨⟨⟨⟨name, hname⟩, ⟨title, htitle⟩, ⟨description, hdescription⟩, ⟨helpText, hhelp⟩⟩,
    ⟨isBeta, hbeta⟩, ⟨enableByDefault, hdefault⟩, ⟨rebootOnEnable, hreboot⟩,
    ⟨containerSupported, hcontainer⟩⟩, ⟨availability, havailability⟩⟩,
    ⟨requiredServices, hrequired⟩⟩ := h
  simp [readFields?, hname, htitle, hdescription, hhelp, hbeta, hdefault, hreboot, hcontainer,
    havailability, hrequired]

theorem readService_eq_ok_iff {index : Number} {entry : Json} {s : Service} :
    readService index entry = .ok s ↔ Describes entry s := by
  cases entry with
  | object fields =>
    rw [← readFields?_eq_some_iff]
    cases h : readFields? fields <;> simp [readService, Json.fields?, h]
  | _ =>
    refine ⟨fun h => by simp [readService, Json.fields?] at h, fun h => ?_⟩
    have := h.name.1
    simp [Json.get?, Json.fields?] at this

/-- An entry that gives no service has something wrong with it. -/
theorem ne_nil_of_readService_eq_error {index : Number} {entry : Json} {problems : List Problem}
    (h : readService index entry = .error problems) : problems ≠ [] := by
  rintro rfl
  unfold readService at h
  split at h
  · cases h
  · next fields _ =>
    split at h
    · cases h
    · next hnone =>
      obtain ⟨s, hs⟩ := readFields?_of_fieldProblems (Except.error.inj h)
      rw [hnone] at hs
      cases hs

theorem readEntries_eq_iff {entries : List Json} {services : List Service} {index : Nat} :
    readEntries index entries = (services, []) ↔ List.Forall₂ Describes entries services := by
  induction entries generalizing services index with
  | nil => cases services <;> simp [readEntries]
  | cons entry entries ih =>
    cases h : readService (.ofInt index) entry with
    | error problems =>
      have hne := ne_nil_of_readService_eq_error h
      have hnot : ∀ s, ¬Describes entry s := by
        intro s hs
        rw [readService_eq_ok_iff.mpr hs] at h
        cases h
      cases services <;> simp [readEntries, h, hne, hnot]
    | ok s =>
      have hsame : ∀ t, Describes entry t ↔ s = t := by
        intro t
        rw [← @readService_eq_ok_iff (.ofInt index), h, Except.ok.injEq]
      cases services with
      | nil => simp [readEntries, h]
      | cons t ts =>
        rw [List.forall₂_cons, hsame, ← @ih ts (index + 1)]
        simp [readEntries, h, Prod.ext_iff, and_assoc]

/-- A document is accepted if and only if it is an object whose services are entries that describe
services which fit together. Those services are what is read, in order; a catalog can be built of
them; and the search for circles comes to its end however deep it has to go. -/
theorem readDocument_eq_ok_iff (document : Json) (services : List Service) :
    (readDocument document = .ok services ↔
      ∃ entries, document.get? "services" = some (.array entries) ∧
        List.Forall₂ Describes entries services ∧ FitTogether services) ∧
    (readDocument document = .ok services → ∃ c, build services = .ok c ∧ c.services = services) ∧
    ∃ finished, Followed (otherRequirements services) [] (services.map (·.name)) ⟨[], []⟩
      ⟨finished, cycles services⟩ := by
  refine ⟨?_, fun h => ?_, followed_cycles services⟩
  · simp only [readDocument_eq_ok, readEntries_eq_iff]
  · obtain ⟨_, _, _, fit⟩ := readDocument_eq_ok.mp h
    exact ⟨_, build_eq_ok fit.distinct, rfl⟩

end Catalog

end Subscription
