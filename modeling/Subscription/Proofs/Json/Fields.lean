import Mathlib.Data.List.Forall2
import Subscription.Proofs.Json.Objects

/-!
Values and the order of their fields. Values are alike when the same is found under every key, at every
level, in whatever order the fields come; a reader that finds fields by their keys cannot tell such values
apart. A schema, on the other hand, fixes the keys of a value and their order.
-/

namespace Subscription.Json

variable {α β : Type} {v w : Json} {read : Json → Option α}

/-! ### Values that differ in the order of fields at most -/

/-- The values are the same but for the order of fields, at every level. -/
inductive Alike : Json → Json → Prop
  | same (v : Json) : Alike v v
  | array {vs ws : List Json} (items : List.Forall₂ Alike vs ws) : Alike (.array vs) (.array ws)
  | object {fs gs : List (Text × Json)}
      (fields : ∀ key, Option.Rel Alike (lookup fs key) (lookup gs key)) :
      Alike (.object fs) (.object gs)

/-- A reader that does not heed the order of fields. -/
def Blind (read : Json → Option α) : Prop :=
  ∀ ⦃v w⦄, Alike v w → read v = read w

theorem blind_string? : Blind string? := by
  intro v w h
  cases h <;> rfl

theorem blind_bool? : Blind bool? := by
  intro v w h
  cases h <;> rfl

theorem Blind.bind (h : Blind read) (next : α → Option β) : Blind fun v => (read v).bind next :=
  fun _ _ halike => congrArg (Option.bind · next) (h halike)

def each? (read : Json → Option α) (v : Json) : Option (List α) :=
  v.items?.bind (·.mapM read)

theorem Blind.each (h : Blind read) : Blind (each? read) := by
  intro v w halike
  cases halike with
  | same | object => rfl
  | @array vs ws items =>
    show vs.mapM read = ws.mapM read
    induction items with
    | nil => rfl
    | cons hitem _ ih => rw [List.mapM_cons, List.mapM_cons, h hitem, ih]

theorem blind_strings? : Blind strings? :=
  blind_string?.each

def field? (v : Json) (key : Text) (read : Json → Option α) : Option α :=
  (v.get? key).bind read

theorem Alike.field?_eq (h : Alike v w) (key : Text) (hread : Blind read) :
    v.field? key read = w.field? key read := by
  cases h with
  | same | array => rfl
  | @object fs gs fields =>
    show (lookup fs key).bind read = (lookup gs key).bind read
    have hvalue := fields key
    generalize lookup fs key = found, lookup gs key = found' at hvalue ⊢
    cases hvalue with
    | none => rfl
    | some hvalue => exact hread hvalue

def textOrNull? : Json → Option (Option Text)
  | .null => some none
  | v => v.string?.map some

theorem blind_textOrNull? : Blind textOrNull? := by
  intro v w h
  cases h <;> rfl

@[simp] theorem textOrNull?_ofString? (text : Option Text) : textOrNull? (ofString? text) = some text := by
  cases text <;> rfl

def named? (name : α → Text) (all : List α) (v : Json) : Option α :=
  v.string?.bind fun text => all.find? (name · = text)

theorem blind_named? (name : α → Text) (all : List α) : Blind (named? name all) :=
  blind_string?.bind _

theorem each?_array {toJson : α → Json} (h : ∀ a, read (toJson a) = some a) (as : List α) :
    each? read (.array (as.map toJson)) = some as := by
  show (as.map toJson).mapM read = some as
  induction as with
  | nil => rfl
  | cons a as ih => rw [List.map_cons, List.mapM_cons, h, ih]; rfl

/-! ### Keys in order -/

/-- What kind of value there is, and for an object which fields it has, in their order. -/
inductive Schema where
  | leaf
  | list (item : Schema)
  | record (fields : List (Text × Schema))

namespace Schema

/-- At every level the keys of the value are those of the schema, in its order. -/
inductive Fits : Schema → Json → Prop
  | null : Fits .leaf .null
  | bool (b : Bool) : Fits .leaf (.bool b)
  | string (s : Text) : Fits .leaf (.string s)
  | list {item : Schema} {vs : List Json} (items : ∀ v ∈ vs, Fits item v) :
      Fits (.list item) (.array vs)
  | empty : Fits (.record []) (.object [])
  | field {key : Text} {value : Schema} {v : Json} {fields : List (Text × Schema)}
      {fs : List (Text × Json)} (first : Fits value v) (rest : Fits (.record fields) (.object fs)) :
      Fits (.record ((key, value) :: fields)) (.object ((key, v) :: fs))

theorem fits_ofStrings (ss : List Text) : (list leaf).Fits (ofStrings ss) := by
  refine .list fun v hv => ?_
  obtain ⟨s, -, rfl⟩ := List.mem_map.mp hv
  exact .string s

theorem fits_ofString? (text : Option Text) : leaf.Fits (ofString? text) := by
  cases text with
  | none => exact .null
  | some s => exact .string s

theorem fits_map {σ : Schema} {toJson : α → Json} (h : ∀ a, σ.Fits (toJson a)) (as : List α) :
    (list σ).Fits (.array (as.map toJson)) := by
  refine .list fun v hv => ?_
  obtain ⟨a, -, rfl⟩ := List.mem_map.mp hv
  exact h a

mutual

def proper : Schema → Bool
  | leaf => true
  | list item => item.proper
  | record fields => properFields fields

def properFields : List (Text × Schema) → Bool
  | [] => true
  | (key, value) :: fields => decide (key ∉ fields.map (·.1)) && (indexKey? key).isNone &&
      value.proper && properFields fields

end

theorem Fits.keys_eq {fields : List (Text × Schema)} {fs : List (Text × Json)}
    (h : (record fields).Fits (.object fs)) : fs.map (·.1) = fields.map (·.1) := by
  induction fields generalizing fs with
  | nil =>
    cases h
    rfl
  | cons f fields ih =>
    cases h with
    | field first rest => rw [List.map_cons, List.map_cons, ih rest]

theorem keys_of_proper {fields : List (Text × Schema)} (h : properFields fields = true) :
    (fields.map (·.1)).Nodup ∧ ∀ k ∈ fields.map (·.1), indexKey? k = none := by
  induction fields with
  | nil => exact ⟨.nil, nofun⟩
  | cons f fields ih =>
    simp only [properFields, Bool.and_eq_true, decide_eq_true_eq, Option.isNone_iff_eq_none] at h
    obtain ⟨⟨⟨hnew, hkey⟩, -⟩, hfields⟩ := h
    obtain ⟨hnodup, hkeys⟩ := ih hfields
    exact ⟨List.nodup_cons.mpr ⟨hnew, hnodup⟩, List.forall_mem_cons.mpr ⟨hkey, hkeys⟩⟩

/-- What fits a proper schema is written as it stands. -/
theorem Fits.plain {σ : Schema} (h : σ.Fits v) (proper : σ.proper = true) : v.Plain := by
  induction h with
  | null => exact .null
  | bool b => exact .bool b
  | string s => exact .string s
  | list _ ih =>
    rw [Schema.proper] at proper
    exact .array fun v hv => ih v hv proper
  | empty => exact .object nofun rfl
  | @field key value v fields fs first rest ihfirst ihrest =>
    rw [Schema.proper] at proper
    have hfits : (record ((key, value) :: fields)).Fits (.object ((key, v) :: fs)) := .field first rest
    have hkeys := keys_of_proper proper
    rw [← hfits.keys_eq] at hkeys
    simp only [properFields, Bool.and_eq_true] at proper
    have hvalues : ∀ f ∈ fs, Plain f.2 := by
      cases ihrest (by rw [Schema.proper]; exact proper.2) with
      | object values => exact values
    exact .object (List.forall_mem_cons.mpr ⟨ihfirst proper.1.2, hvalues⟩)
      (ofMembers_of_nodup hkeys.1 hkeys.2)

end Schema

end Subscription.Json
