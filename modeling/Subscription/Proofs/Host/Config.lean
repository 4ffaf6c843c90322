import Subscription.Host.Config
import Subscription.Host.Machine
import Subscription.Proofs.Json.Members
import Subscription.Proofs.Reasoning

/-!
What comes of the configuration file. A `Field` is one of the settings that the file may make: its key, and
the values it may have. Main statement: whatever the text of the file, loading it ends with a configuration;
every setting is the value that the file gives for it, if it may have that value, and the usual one
otherwise, whatever else the file holds, and the operator is told about every value that is not taken.
-/

namespace Subscription.Config

/-- The fields of the file, in the order in which they are checked. -/
inductive Field where
  | series
  | allowBeta
  | contractFile
  | instanceFile
  | osReleasePath
  | runDir
  | logOperations

namespace Field

def all : List Field :=
  [.series, .allowBeta, .contractFile, .instanceFile, .osReleasePath, .runDir, .logOperations]

def key : Field → Text
  | .series => "series"
  | .allowBeta => "allow_beta"
  | .contractFile => "contract_file"
  | .instanceFile => "instance_file"
  | .osReleasePath => "os_release_path"
  | .runDir => "run_dir"
  | .logOperations => "log_operations"

inductive Kind where
  | series
  | path
  | flag

def kind : Field → Kind
  | .series => .series
  | .allowBeta | .logOperations => .flag
  | .contractFile | .instanceFile | .osReleasePath | .runDir => .path

/-- The values that a field may have: a text that is not empty, or a truth value. The series may be null,
too. -/
def Kind.admits : Kind → Json → Bool
  | .series, .null => true
  | .series, .string t => t ≠ ""
  | .path, .string t => t ≠ ""
  | .flag, .bool _ => true
  | _, _ => false

def warning (f : Field) : Warning :=
  match f.kind with
  | .flag => .notFlag f.key
  | .series | .path => .notText f.key

def setting (c : Config) : Field → Json
  | .series => .ofString? c.series
  | .allowBeta => .bool c.allowBeta
  | .contractFile => .string c.contractFile
  | .instanceFile => .string c.instanceFile
  | .osReleasePath => .string c.osReleasePath
  | .runDir => .string c.runDir
  | .logOperations => .bool c.logOperations

def supplied? (fields : List (Text × Json)) (f : Field) : Option Json :=
  (Json.lookup fields f.key).filter f.kind.admits

def complaint? (fields : List (Text × Json)) (f : Field) : Option Warning :=
  ((Json.lookup fields f.key).filter (!f.kind.admits ·)).map fun _ => f.warning

/-! ### Reading a field -/

section Reads

variable {α : Type} {kind : Kind} {read : Json → Option α} {toJson : α → Json}

def Kind.Reads (kind : Kind) (read : Json → Option α) (toJson : α → Json) : Prop :=
  ∀ v, (read v).map toJson = if kind.admits v then some v else none

theorem reads_series? : Kind.series.Reads series? Json.ofString? := by
  intro v
  cases v with
  | string t =>
    by_cases h : t = "" <;>
      simp [series?, Json.filledString?, Json.string?, Option.filter_some, Kind.admits, h, Json.ofString?]
  | _ => rfl

theorem reads_filledString? : Kind.path.Reads Json.filledString? Json.string := by
  intro v
  cases v with
  | string t =>
    by_cases h : t = "" <;> simp [Json.filledString?, Json.string?, Option.filter_some, Kind.admits, h]
  | _ => rfl

theorem reads_bool? : Kind.flag.Reads Json.bool? Json.bool := by
  intro v
  cases v <;> rfl

theorem Kind.Reads.taken_or_not (reads : kind.Reads read toJson) (v : Json) :
    (∃ a, read v = some a ∧ toJson a = v ∧ kind.admits v = true) ∨
      read v = none ∧ kind.admits v = false := by
  have hv := reads v
  cases hadmits : kind.admits v with
  | true =>
    rw [if_pos hadmits] at hv
    obtain ⟨a, ha, hback⟩ := Option.map_eq_some_iff.mp hv
    exact .inl ⟨a, ha, hback, rfl⟩
  | false =>
    rw [if_neg (by simp [hadmits])] at hv
    exact .inr ⟨Option.map_eq_none_iff.mp hv, rfl⟩

variable (reads : kind.Reads read toJson) (fields : List (Text × Json)) (key : Text) (usual : α)
  (w : Warning)

include reads

theorem toJson_pick : toJson (pick fields key read usual w).1 =
    ((Json.lookup fields key).filter kind.admits).getD (toJson usual) := by
  rw [pick]
  cases Json.lookup fields key with
  | none => rfl
  | some v => rcases reads.taken_or_not v with ⟨a, hread, rfl, hadmits⟩ | ⟨hread, hadmits⟩ <;>
      simp [hread, Option.filter_some, hadmits]

theorem warnings_pick : (pick fields key read usual w).2 =
    (((Json.lookup fields key).filter (!kind.admits ·)).map fun _ => w).toList := by
  rw [pick]
  cases Json.lookup fields key with
  | none => rfl
  | some v => rcases reads.taken_or_not v with ⟨a, hread, rfl, hadmits⟩ | ⟨hread, hadmits⟩ <;>
      simp [hread, Option.filter_some, hadmits]

end Reads

end Field

/-- Every setting is what the object gives for its field, or else the usual one. -/
theorem setting_ofFields (usual : Config) (fields : List (Text × Json)) (f : Field) :
    f.setting (ofFields usual fields).1 = (f.supplied? fields).getD (f.setting usual) := by
  cases f with
  | series => exact Field.toJson_pick Field.reads_series? fields _ _ _
  | allowBeta | logOperations => exact Field.toJson_pick Field.reads_bool? fields _ _ _
  | contractFile | instanceFile | osReleasePath | runDir =>
    exact Field.toJson_pick Field.reads_filledString? fields _ _ _

/-- There is a warning for every field whose value is not taken, and for every other key. -/
theorem warnings_ofFields (usual : Config) (fields : List (Text × Json)) :
    (ofFields usual fields).2 = Field.all.filterMap (Field.complaint? fields) ++
      ((fields.map (·.1)).filter (· ∉ Field.all.map Field.key)).map .unknownField := by
  simp only [ofFields, Field.warnings_pick Field.reads_series?, Field.warnings_pick Field.reads_bool?,
    Field.warnings_pick Field.reads_filledString?]
  rw [List.filterMap_eq_flatMap_toList]
  simp only [Field.all, List.flatMap_cons, List.flatMap_nil, List.append_assoc, List.append_nil]
  rfl

/-! ### Loading -/

variable {σ : Type}

theorem exec_load {files : FileSystem (StateM σ)} {home text : String} {s t : σ}
    (hread : (files.read (Path.join [home, fileName])).run s = (.ok text, t)) :
    exec (load files home) s = (.ok (ofText home text), t) := by
  rw [load, exec_bind]
  have hlift : exec (liftM (files.read (Path.join [home, fileName])) :
      ExceptT Fault (StateM σ) (Except FileError String)) s = (.ok (.ok text), t) := by
    rw [exec_lift, hread]
  rw [hlift]
  rfl

/-- Loading a file that can be read gives a configuration, whatever its text. A text that is no data, or no
object, leaves all settings as usual and gives one warning. An object makes every setting for which it has
a value that its field may have, and no other, whatever other members it has. There is one warning for
every field with a value that it may not have, in the order of the fields, and then one for every other
key, in the order of the object. -/
theorem load_field_by_field {files : FileSystem (StateM σ)} {home text : String} {s t : σ}
    (hread : (files.read (Path.join [home, fileName])).run s = (.ok text, t)) :
    ∃ config warnings, exec (load files home) s = (.ok (config, warnings), t) ∧
      (Json.parse text = none →
        config = default home ∧ warnings = [.notJson (Path.join [home, fileName])]) ∧
      (∀ v, Json.parse text = some v → (∀ fields, v ≠ .object fields) →
        config = default home ∧ warnings = [.notObject (Path.join [home, fileName])]) ∧
      ∀ fields, Json.parse text = some (.object fields) →
        (∃ members, Json.members? text = some members ∧ Json.Gathers members fields) ∧
        (∀ f : Field, f.setting config = (f.supplied? fields).getD (f.setting (default home))) ∧
        warnings = Field.all.filterMap (Field.complaint? fields) ++
          ((fields.map (·.1)).filter (· ∉ Field.all.map Field.key)).map .unknownField := by
  refine ⟨(ofText home text).1, (ofText home text).2, exec_load hread, fun hparse => ?_,
    fun v hparse hv => ?_, fun fields hparse => ⟨Json.gathers_of_parse hparse, ?_⟩⟩
  · rw [ofText, hparse]
    exact ⟨rfl, rfl⟩
  · have hfields : v.fields? = none := by
      cases v with
      | object fields => exact absurd rfl (hv fields)
      | _ => rfl
    have htext : ofText home text = (default home, [.notObject (Path.join [home, fileName])]) := by
      simp only [ofText, hparse, hfields]
    rw [htext]
    exact ⟨rfl, rfl⟩
  · have htext : ofText home text = ofFields (default home) fields := by
      rw [ofText, hparse]
      rfl
    rw [htext]
    exact ⟨setting_ofFields (default home) fields, warnings_ofFields (default home) fields⟩

def disorder : String :=
  "\x7b\"run_dir\": \"\", \"colour\": true, \"series\": null, \"7\": [], \"allow_beta\": \"yes\", " ++
    "\"run_dir\": \"/tmp\", \"log_operations\": false\x7d"

def disordered : Machine :=
  .ofTree ⟨[(["pro"], .directory), (["pro", "config.json"], .file disorder)]⟩

theorem load_field_by_field_disordered : ∃ config,
    exec (load Machine.files "/pro") disordered =
      (.ok (config, [.notFlag "allow_beta", .unknownField "7", .unknownField "colour"]), disordered) ∧
    Field.runDir.setting config = .string "/tmp" ∧
    Field.logOperations.setting config = .bool false := by
  have hread : ((Machine.files : FileSystem (StateM Machine)).read (Path.join ["/pro", fileName])).run
      disordered = (.ok disorder, disordered) := rfl
  obtain ⟨config, warnings, hexec, -, -, hobject⟩ := load_field_by_field hread
  -- The index comes first, and the key that is given twice has its second value.
  obtain ⟨fields, hfields, hkeys, hcomplaints, hrunDir, hlog⟩ :
      ∃ fields, fields ∈ (Json.parse disorder).bind Json.fields? ∧
        fields.map (·.1) =
          (["7", "run_dir", "colour", "series", "allow_beta", "log_operations"] : List Text) ∧
        Field.all.filterMap (Field.complaint? fields) = [.notFlag "allow_beta"] ∧
        (Field.runDir.supplied? fields).bind Json.string? = some (Text.ofString "/tmp") ∧
        (Field.logOperations.supplied? fields).bind Json.bool? = some false := by
    decide +kernel
  obtain ⟨v, hparse, hv⟩ := Option.bind_eq_some_iff.mp hfields
  rw [Json.fields?_eq_some_iff.mp hv] at hparse
  obtain ⟨-, hsettings, hwarnings⟩ := hobject fields hparse
  have htold : warnings = [.notFlag "allow_beta", .unknownField "7", .unknownField "colour"] := by
    rw [hwarnings, hcomplaints, hkeys]
    decide
  obtain ⟨dir, hdir, htext⟩ := Option.bind_eq_some_iff.mp hrunDir
  obtain ⟨flag, hflag, hbool⟩ := Option.bind_eq_some_iff.mp hlog
  refine ⟨config, htold ▸ hexec, ?_, ?_⟩
  · rw [hsettings, hdir]
    exact Json.string?_eq_some_iff.mp htext
  · rw [hsettings, hflag]
    exact Json.bool?_eq_some_iff.mp hbool

end Subscription.Config
