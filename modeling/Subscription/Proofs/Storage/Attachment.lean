import Subscription.Proofs.Json.Objects
import Subscription.Storage.Attachment

/-!
Attachments are stored without loss: what is written for an attachment, in either style, is read back as
the same attachment.
-/

namespace Subscription

namespace ContractRecord

theorem Field.key_injective : Function.Injective Field.key := by
  intro f g
  cases f <;> cases g <;> decide

theorem Field.indexKey?_key (f : Field) : Json.indexKey? f.key = none := by
  cases f <;> decide

/-- A field is found under its key, wherever it stands. -/
theorem get?_toJson {order : List Field} {f : Field} (hf : f ∈ order) (r : ContractRecord) :
    (r.toJson order).get? f.key = (r.text? f).map .string := by
  -- Stated for any list of fields, since the induction leaves out those at the front.
  suffices H : Json.lookup (order.filterMap fun g => (r.text? g).map fun text =>
      (g.key, Json.string text)) f.key = if f ∈ order then (r.text? f).map .string else none by
    rw [if_pos hf] at H
    exact H
  clear hf
  induction order with
  | nil => rfl
  | cons g order ih =>
    cases htext : r.text? g with
    | none =>
      rw [List.filterMap_cons_none (by rw [htext]; rfl), ih]
      by_cases hgf : g = f
      · simp [← hgf, htext]
      · simp [Ne.symm hgf]
    | some text =>
      rw [List.filterMap_cons_some (by rw [htext]; rfl), Json.lookup_cons, ih]
      by_cases hgf : g = f
      · simp [← hgf, htext]
      · have hkey : g.key ≠ f.key := fun h => hgf (Field.key_injective h)
        simp [Ne.symm hgf, hkey]

theorem plain_toJson {order : List Field} (hnd : order.Nodup) (r : ContractRecord) :
    (r.toJson order).Plain := by
  have hmem : ∀ g ∈ order.filterMap fun f => (r.text? f).map fun text => (f.key, Json.string text),
      ∃ f ∈ order, ∃ text, g = (f.key, .string text) := by
    intro g hg
    obtain ⟨f, hf, htext⟩ := List.mem_filterMap.mp hg
    obtain ⟨text, -, rfl⟩ := Option.map_eq_some_iff.mp htext
    exact ⟨f, hf, text, rfl⟩
  refine .object (fun g hg => ?_) (Json.ofMembers_of_nodup ?_ fun k hk => ?_)
  · obtain ⟨f, -, text, rfl⟩ := hmem g hg
    exact .string text
  · rw [List.map_filterMap]
    refine List.Nodup.filterMap (fun f g k hf hg => ?_) hnd
    simp only [Option.mem_def, Option.map_map, Option.map_eq_some_iff] at hf hg
    obtain ⟨_, _, hf⟩ := hf
    obtain ⟨_, _, hg⟩ := hg
    exact Field.key_injective (hf.trans hg.symm)
  · obtain ⟨g, hg, rfl⟩ := List.mem_map.mp hk
    obtain ⟨f, -, text, rfl⟩ := hmem g hg
    exact f.indexKey?_key

theorem ofJson?_toJson {order : List Field} (hall : ∀ f, f ∈ order) (r : ContractRecord) :
    ofJson? (r.toJson order) = some r := by
  have hname := get?_toJson (hall .name) r
  have htoken := get?_toJson (hall .token) r
  have hattachedAt := get?_toJson (hall .attachedAt) r
  have hinstanceId := get?_toJson (hall .instanceId) r
  simp only [Field.key] at hname htoken hattachedAt hinstanceId
  rw [ofJson?, hname, htoken, hattachedAt, hinstanceId]
  rcases r with ⟨name, token, attachedAt, _ | instanceId⟩ <;> rfl

end ContractRecord

namespace Attachment

theorem plain_toJsonBy {order : List ContractRecord.Field} (hnd : order.Nodup) (a : Attachment) :
    (a.toJsonBy order).Plain := by
  have hkeys : ∀ k ∈ [("attached" : Text), "entitlements", "enabled_services", "contract"],
      Json.indexKey? k = none := by decide
  refine .object (fun f hf => ?_) (Json.ofMembers_of_nodup ?_ hkeys)
  · simp only [List.mem_cons, List.not_mem_nil, or_false] at hf
    rcases hf with rfl | rfl | rfl | rfl
    · exact .bool a.attached
    · exact Json.plain_ofStrings a.entitlements
    · exact Json.plain_ofStrings a.enabled
    · cases a.contract with
      | none => exact .null
      | some r => exact r.plain_toJson hnd
  · show [("attached" : Text), "entitlements", "enabled_services", "contract"].Nodup
    decide

theorem ofJson?_toJsonBy {order : List ContractRecord.Field} (hall : ∀ f, f ∈ order)
    (a : Attachment) : ofJson? (a.toJsonBy order) = some a := by
  have hattached : (a.toJsonBy order).get? "attached" = some (.bool a.attached) := rfl
  have hentitlements : (a.toJsonBy order).get? "entitlements" = some (.ofStrings a.entitlements) :=
    rfl
  have henabled : (a.toJsonBy order).get? "enabled_services" = some (.ofStrings a.enabled) := rfl
  have hcontract : (a.toJsonBy order).get? "contract" =
      some ((a.contract.map (ContractRecord.toJson order)).getD .null) := rfl
  have hread : readContract? ((a.contract.map (ContractRecord.toJson order)).getD .null) =
      some a.contract := by
    cases a.contract with
    | none => rfl
    | some r =>
      show (ContractRecord.ofJson? (r.toJson order)).map some = some (some r)
      rw [r.ofJson?_toJson hall]
      rfl
  simp [ofJson?, hattached, hentitlements, henabled, hcontract, hread, Json.bool?]

theorem ofStored_toJsonBy {order : List ContractRecord.Field} (hall : ∀ f, f ∈ order)
    (a : Attachment) : ofStored (some (a.toJsonBy order)) = a := by
  show (ofJson? (a.toJsonBy order)).getD unattached = a
  rw [a.ofJson?_toJsonBy hall]
  rfl

/-- What is stored for an attachment stands for it. -/
theorem ofStored_parse {order : List ContractRecord.Field} (hnd : order.Nodup)
    (hall : ∀ f, f ∈ order) (a : Attachment) :
    ofStored (Json.parse (a.toJsonBy order).compact) = a := by
  rw [(a.plain_toJsonBy hnd).parse_compact, ofStored_toJsonBy hall]

theorem ofStored_parse_indented {order : List ContractRecord.Field} (hnd : order.Nodup)
    (hall : ∀ f, f ∈ order) (a : Attachment) :
    ofStored (Json.parse (a.toJsonBy order).indented) = a := by
  rw [(a.plain_toJsonBy hnd).parse_indented, ofStored_toJsonBy hall]

end Attachment

end Subscription
