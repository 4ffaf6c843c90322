import Subscription.Proofs.Json.Fields
import Subscription.View.Help
import Subscription.View.Status

/-!
The documents that programs read: reports, help pages and the status. Each of them is taken from an object
field by field and written in the order of its schema, so its text does not depend on the order in which
the object holds its fields; and the text is read back as the same document.
-/

namespace Subscription

open Json (Schema)

/-- How values of a kind are told to programs: the object that is written, what a program makes of an
object, and the keys of the object in order. -/
structure Document (α : Type) where
  toJson : α → Json
  ofJson? : Json → Option α
  schema : Schema

namespace Document

variable {α : Type} {d : Document α}

def render? (d : Document α) (v : Json) : Option String :=
  (d.ofJson? v).map fun a => (d.toJson a).indented

/-- Nothing is lost in the text of a document, and nothing but the values of the fields goes into it. -/
structure Faithful (d : Document α) : Prop where
  /-- An object with the fields of a document, in whatever order, has a text that is read as the same
  fields in the order of the schema. -/
  lossless : ∀ a v, Json.Alike v (d.toJson a) →
    ∃ text w, d.render? v = some text ∧ text = (d.toJson a).indented ∧ Json.parse text = some w ∧
      Json.Alike v w ∧ d.ofJson? w = some a ∧ d.schema.Fits w
  /-- Objects that differ in the order of their fields at most have the same text. -/
  canonical : ∀ v w, Json.Alike v w → d.render? v = d.render? w

theorem faithful (proper : d.schema.proper = true) (fits : ∀ a, d.schema.Fits (d.toJson a))
    (reads : ∀ a, d.ofJson? (d.toJson a) = some a) (blind : Json.Blind d.ofJson?) : d.Faithful where
  lossless a v halike := by
    refine ⟨_, _, ?_, rfl, ((fits a).plain proper).parse_indented, halike, reads a, fits a⟩
    rw [render?, blind halike, reads]
    rfl
  canonical v w halike := by rw [render?, render?, blind halike]

theorem Faithful.read_back (h : d.Faithful) (a : α) :
    (Json.parse (d.toJson a).indented).bind d.ofJson? = some a := by
  obtain ⟨_, w, -, rfl, hparse, -, hread, -⟩ := h.lossless a _ (.same _)
  rw [hparse]
  exact hread

end Document

/-! ### Reports -/

namespace Entry

def ofJson? (v : Json) : Option Entry := do
  let message ← v.field? "message" Json.string?
  let code ← v.field? "message_code" Json.string?
  let service ← v.field? "service" Json.textOrNull?
  let scope ← v.field? "type" (Json.named? Scope.name [.system, .service])
  return ⟨message, code, service, scope⟩

def schema : Schema :=
  .record [("message", .leaf), ("message_code", .leaf), ("service", .leaf), ("type", .leaf)]

theorem fits_toJson (e : Entry) : schema.Fits e.toJson :=
  .field (.string _) <| .field (.string _) <| .field (Schema.fits_ofString? _) <|
    .field (.string _) .empty

theorem ofJson?_toJson (e : Entry) : ofJson? e.toJson = some e := by
  obtain ⟨message, code, _ | service, _ | _⟩ := e <;> rfl

theorem blind_ofJson? : Json.Blind ofJson? := by
  intro v w h
  simp only [ofJson?, h.field?_eq _ Json.blind_string?, h.field?_eq _ Json.blind_textOrNull?,
    h.field?_eq _ (Json.blind_named? _ _)]

end Entry

namespace Report

def ofJson? (v : Json) : Option Report := do
  let _ ← v.field? "_schema_version" (Json.named? id [schemaVersion])
  let verdict ← v.field? "result" (Json.named? Verdict.name [.success, .failure])
  let processed ← v.field? "processed_services" Json.strings?
  let failed ← v.field? "failed_services" Json.strings?
  let errors ← v.field? "errors" (Json.each? Entry.ofJson?)
  let warnings ← v.field? "warnings" (Json.each? Entry.ofJson?)
  let needsReboot ← v.field? "needs_reboot" Json.bool?
  return ⟨verdict, processed, failed, errors, warnings, needsReboot⟩

def document : Document Report where
  toJson := toJson
  ofJson? := ofJson?
  schema := .record [("_schema_version", .leaf), ("result", .leaf), ("processed_services", .list .leaf),
    ("failed_services", .list .leaf), ("errors", .list Entry.schema), ("warnings", .list Entry.schema),
    ("needs_reboot", .leaf)]

theorem fits_toJson (r : Report) : document.schema.Fits r.toJson :=
  .field (.string _) <| .field (.string _) <| .field (Schema.fits_ofStrings _) <|
    .field (Schema.fits_ofStrings _) <| .field (Schema.fits_map Entry.fits_toJson _) <|
      .field (Schema.fits_map Entry.fits_toJson _) <| .field (.bool _) .empty

theorem ofJson?_toJson (r : Report) : ofJson? r.toJson = some r := by
  have hversion : r.toJson.field? "_schema_version" (Json.named? id [schemaVersion]) =
      some schemaVersion := rfl
  have hverdict : r.toJson.field? "result" (Json.named? Verdict.name [.success, .failure]) =
      some r.verdict := by
    obtain ⟨_ | _, processed, failed, errors, warnings, needsReboot⟩ := r <;> rfl
  have hprocessed : r.toJson.field? "processed_services" Json.strings? = some r.processed :=
    Json.strings?_ofStrings r.processed
  have hfailed : r.toJson.field? "failed_services" Json.strings? = some r.failed :=
    Json.strings?_ofStrings r.failed
  have herrors : r.toJson.field? "errors" (Json.each? Entry.ofJson?) = some r.errors :=
    Json.each?_array Entry.ofJson?_toJson r.errors
  have hwarnings : r.toJson.field? "warnings" (Json.each? Entry.ofJson?) = some r.warnings :=
    Json.each?_array Entry.ofJson?_toJson r.warnings
  have hneedsReboot : r.toJson.field? "needs_reboot" Json.bool? = some r.needsReboot := rfl
  rw [ofJson?, hversion, hverdict, hprocessed, hfailed, herrors, hwarnings, hneedsReboot]
  rfl

theorem blind_ofJson? : Json.Blind ofJson? := by
  intro v w h
  simp only [ofJson?, h.field?_eq _ (Json.blind_named? _ _), h.field?_eq _ Json.blind_strings?,
    h.field?_eq _ Entry.blind_ofJson?.each, h.field?_eq _ Json.blind_bool?]

theorem faithful_document : document.Faithful :=
  Document.faithful (by decide) fits_toJson ofJson?_toJson blind_ofJson?

end Report

/-! ### Help pages -/

def View.answer? : Json → Option Bool :=
  Json.named? View.yesOrNo [true, false]

namespace HelpPage

def ofJson? (v : Json) : Option HelpPage := do
  let name ← v.field? "name" Json.string?
  let available ← v.field? "available" View.answer?
  let help ← v.field? "help" Json.string?
  return ⟨name, available, help⟩

def document : Document HelpPage where
  toJson := toJson
  ofJson? := ofJson?
  schema := .record [("name", .leaf), ("available", .leaf), ("help", .leaf)]

theorem fits_toJson (p : HelpPage) : document.schema.Fits p.toJson :=
  .field (.string _) <| .field (.string _) <| .field (.string _) .empty

theorem ofJson?_toJson (p : HelpPage) : ofJson? p.toJson = some p := by
  obtain ⟨name, _ | _, help⟩ := p <;> rfl

theorem blind_ofJson? : Json.Blind ofJson? := by
  intro v w h
  simp only [ofJson?, View.answer?, h.field?_eq _ Json.blind_string?,
    h.field?_eq _ (Json.blind_named? _ _)]

theorem faithful_document : document.Faithful :=
  Document.faithful (by decide) fits_toJson ofJson?_toJson blind_ofJson?

end HelpPage

/-! ### The status -/

namespace StatusRow

def ofJson? (v : Json) : Option StatusRow := do
  let name ← v.field? "name" Json.string?
  let entitled ← v.field? "entitled" View.answer?
  let status ← v.field? "status" (Json.named? ServiceStatus.name [.enabled, .disabled, .notApplicable])
  let available ← v.field? "available" View.answer?
  let description ← v.field? "description" Json.string?
  return ⟨name, entitled, status, available, description⟩

def schema : Schema :=
  .record [("name", .leaf), ("entitled", .leaf), ("status", .leaf), ("available", .leaf),
    ("description", .leaf)]

theorem fits_toJson (r : StatusRow) : schema.Fits r.toJson :=
  .field (.string _) <| .field (.string _) <| .field (.string _) <| .field (.string _) <|
    .field (.string _) .empty

theorem ofJson?_toJson (r : StatusRow) : ofJson? r.toJson = some r := by
  obtain ⟨name, _ | _, _ | _ | _, _ | _, description⟩ := r <;> rfl

theorem blind_ofJson? : Json.Blind ofJson? := by
  intro v w h
  simp only [ofJson?, View.answer?, h.field?_eq _ Json.blind_string?,
    h.field?_eq _ (Json.blind_named? _ _)]

end StatusRow

namespace Status

def ofJson? (v : Json) : Option Status := do
  let _ ← v.field? "_schema_version" (Json.named? id [schemaVersion])
  let attached ← v.field? "attached" Json.bool?
  let contractName ← v.field? "contract_name" Json.textOrNull?
  let series ← v.field? "series" Json.string?
  let rows ← v.field? "services" (Json.each? StatusRow.ofJson?)
  return ⟨attached, contractName, series, rows⟩

def document : Document Status where
  toJson := toJson
  ofJson? := ofJson?
  schema := .record [("_schema_version", .leaf), ("attached", .leaf), ("contract_name", .leaf),
    ("series", .leaf), ("services", .list StatusRow.schema)]

theorem fits_toJson (s : Status) : document.schema.Fits s.toJson :=
  .field (.string _) <| .field (.bool _) <| .field (Schema.fits_ofString? _) <| .field (.string _) <|
    .field (Schema.fits_map StatusRow.fits_toJson _) .empty

theorem ofJson?_toJson (s : Status) : ofJson? s.toJson = some s := by
  have hversion : s.toJson.field? "_schema_version" (Json.named? id [schemaVersion]) =
      some schemaVersion := rfl
  have hattached : s.toJson.field? "attached" Json.bool? = some s.attached := rfl
  have hcontract : s.toJson.field? "contract_name" Json.textOrNull? = some s.contractName :=
    Json.textOrNull?_ofString? s.contractName
  have hseries : s.toJson.field? "series" Json.string? = some s.series := rfl
  have hrows : s.toJson.field? "services" (Json.each? StatusRow.ofJson?) = some s.rows :=
    Json.each?_array StatusRow.ofJson?_toJson s.rows
  rw [ofJson?, hversion, hattached, hcontract, hseries, hrows]
  rfl

theorem blind_ofJson? : Json.Blind ofJson? := by
  intro v w h
  simp only [ofJson?, h.field?_eq _ (Json.blind_named? _ _), h.field?_eq _ Json.blind_bool?,
    h.field?_eq _ Json.blind_textOrNull?, h.field?_eq _ Json.blind_string?,
    h.field?_eq _ StatusRow.blind_ofJson?.each]

theorem faithful_document : document.Faithful :=
  Document.faithful (by decide) fits_toJson ofJson?_toJson blind_ofJson?

end Status

/-- Reports, help pages and the status lose nothing in writing, and what is written of them depends on
their fields alone. -/
theorem documents_faithful :
    Report.document.Faithful ∧ HelpPage.document.Faithful ∧ Status.document.Faithful :=
  ⟨Report.faithful_document, HelpPage.faithful_document, Status.faithful_document⟩

example : Status.document.render? (.object [("services", .array []), ("series", .string "jammy"),
    ("attached", .bool false), ("contract_name", .null), ("_schema_version", .string "0.1")]) =
      some (Status.toJson ⟨false, none, "jammy", []⟩).indented := by decide

end Subscription
