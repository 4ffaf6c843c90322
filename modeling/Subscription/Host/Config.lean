import Subscription.Files.Path
import Subscription.Files.System
import Subscription.Host.Container
import Subscription.Host.OsRelease
import Subscription.Json.Reader

/-!
The configuration file. Each of its fields is optional, and a field that is not as it should be has
its usual value; the operator is told about that, and about fields that do not exist.
-/

namespace Subscription

structure Config where
  series : Option Text
  allowBeta : Bool
  contractFile : Text
  instanceFile : Text
  osReleasePath : Text
  runDir : Text
  logOperations : Bool
deriving DecidableEq

namespace Config

def fileName : String :=
  "config.json"

def default (home : String) : Config where
  series := none
  allowBeta := false
  contractFile := Path.join [home, "contracts.json"]
  instanceFile := Path.join [home, "instance.json"]
  osReleasePath := OsRelease.defaultPath
  runDir := Host.defaultRunDir
  logOperations := true

def knownFields : List Text :=
  ["series", "allow_beta", "contract_file", "instance_file", "os_release_path", "run_dir",
    "log_operations"]

inductive Warning where
  | notJson (path : String)
  | notObject (path : String)
  | notText (field : Text)
  | notFlag (field : Text)
  | unknownField (field : Text)
deriving DecidableEq

def Warning.text : Warning → Text
  | .notJson path => path ++ " is not valid JSON; using defaults."
  | .notObject path => path ++ " must contain a JSON object; using defaults."
  | .notText field =>
    fileName ++ ": \"" ++ field ++ "\" must be a non-empty string; using default."
  | .notFlag field => fileName ++ ": \"" ++ field ++ "\" must be a boolean; using default."
  | .unknownField field => fileName ++ ": unknown field \"" ++ field ++ "\" ignored."

def series? : Json → Option (Option Text)
  | .null => some none
  | v => v.filledString?.map some

def pick {α : Type} (fields : List (Text × Json)) (key : Text) (read : Json → Option α)
    (usual : α) (warning : Warning) : α × List Warning :=
  match Json.lookup fields key with
  | none => (usual, [])
  | some v =>
    match read v with
    | some value => (value, [])
    | none => (usual, [warning])

def ofFields (usual : Config) (fields : List (Text × Json)) : Config × List Warning :=
  let series := pick fields "series" series? usual.series (.notText "series")
  let allowBeta := pick fields "allow_beta" Json.bool? usual.allowBeta (.notFlag "allow_beta")
  let contractFile :=
    pick fields "contract_file" Json.filledString? usual.contractFile (.notText "contract_file")
  let instanceFile :=
    pick fields "instance_file" Json.filledString? usual.instanceFile (.notText "instance_file")
  let osReleasePath :=
    pick fields "os_release_path" Json.filledString? usual.osReleasePath
      (.notText "os_release_path")
  let runDir := pick fields "run_dir" Json.filledString? usual.runDir (.notText "run_dir")
  let logOperations :=
    pick fields "log_operations" Json.bool? usual.logOperations (.notFlag "log_operations")
  (⟨series.1, allowBeta.1, contractFile.1, instanceFile.1, osReleasePath.1, runDir.1,
      logOperations.1⟩,
    series.2 ++ allowBeta.2 ++ contractFile.2 ++ instanceFile.2 ++ osReleasePath.2 ++ runDir.2 ++
      logOperations.2 ++
      ((fields.map (·.1)).filter (· ∉ knownFields)).map .unknownField)

def ofText (home text : String) : Config × List Warning :=
  let path := Path.join [home, fileName]
  match Json.parse text with
  | none => (default home, [.notJson path])
  | some v =>
    match v.fields? with
    | none => (default home, [.notObject path])
    | some fields => ofFields (default home) fields

def load {m : Type → Type} [Monad m] (files : FileSystem m) (home : String) :
    ExceptT Fault m (Config × List Warning) := do
  match ← files.read (Path.join [home, fileName]) with
  | .ok text => return ofText home text
  | .error .missing => return (default home, [])
  | .error e => throw (.file e)

end Config

end Subscription
