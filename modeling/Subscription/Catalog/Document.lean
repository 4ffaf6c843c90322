import Subscription.Catalog.Basic
import Subscription.Catalog.Cycle
import Subscription.Characters.Blank
import Subscription.Json.Basic

/-!
Catalog documents: an object with an array of service entries. Reading one either gives its services
in order or lists everything that is wrong with it, entry by entry and then across the entries.
-/

namespace Subscription.Catalog

/-- What is wrong with a catalog document. An `index` is the place of an entry. -/
inductive Problem where
  | notDocument
  | notObject (index : Number)
  | notText (index : Number) (field : Text)
  | notFlag (index : Number) (field : Text)
  | notAvailability (index : Number)
  | notRequirements (index : Number)
  | duplicateName (name : Text)
  | selfRequirement (name : Text)
  | undefinedRequirement (name required : Text)
  | cycle (names : List Text)
deriving DecidableEq

/-- A finding about a document: where it was made, unless it concerns the whole, and what it is. -/
structure Finding where
  context : Option Text
  message : Text
deriving DecidableEq

def entryContext (index : Number) : Text :=
  "services[" ++ index.text ++ "]"

def fieldContext (index : Number) (field : Text) : Text :=
  entryContext index ++ "." ++ field

def Problem.context : Problem → Option Text
  | .notObject index => some (entryContext index)
  | .notText index field => some (fieldContext index field)
  | .notFlag index field => some (fieldContext index field)
  | .notAvailability index => some (fieldContext index "available_by_release")
  | .notRequirements index => some (fieldContext index "required_services")
  | _ => none

def Problem.message : Problem → Text
  | .notDocument => "Catalog must be an object with a \"services\" array."
  | .notObject _ => "Service entry must be an object."
  | .notText _ field => "\"" ++ field ++ "\" must be a non-empty string."
  | .notFlag _ field => "\"" ++ field ++ "\" must be a boolean."
  | .notAvailability _ => "\"available_by_release\" must map series names to booleans."
  | .notRequirements _ => "\"required_services\" must be an array of service names."
  | .duplicateName name => "Duplicate service name \"" ++ name ++ "\"."
  | .selfRequirement name => "Service \"" ++ name ++ "\" cannot require itself."
  | .undefinedRequirement name required =>
    "Service \"" ++ name ++ "\" requires undefined service \"" ++ required ++ "\"."
  | .cycle names =>
    "Services form a required_services cycle: " ++ Text.intercalate " -> " names ++ "."

def Problem.finding (p : Problem) : Finding :=
  ⟨p.context, p.message⟩

def readText? (v : Json) : Option Text :=
  v.string?.filter fun t => Characters.trim t.toString ≠ ""

def readAvailability? (v : Json) : Option (List (Text × Bool)) :=
  v.fields?.bind (·.mapM fun f => f.2.bool?.map fun b => (f.1, b))

def readField? {α : Type} (fields : List (Text × Json)) (key : Text) (read : Json → Option α) :
    Option α :=
  (Json.lookup fields key).bind read

def readFields? (fields : List (Text × Json)) : Option Service := do
  let name ← readField? fields "name" readText?
  let title ← readField? fields "title" readText?
  let description ← readField? fields "description" readText?
  let helpText ← readField? fields "help_text" readText?
  let availability ← readField? fields "available_by_release" readAvailability?
  let isBeta ← readField? fields "is_beta" Json.bool?
  let enableByDefault ← readField? fields "enable_by_default" Json.bool?
  let requiredServices ← readField? fields "required_services" Json.strings?
  let rebootOnEnable ← readField? fields "reboot_on_enable" Json.bool?
  let containerSupported ← readField? fields "container_supported" Json.bool?
  return { name, title, description, helpText, availability, isBeta, enableByDefault,
           requiredServices, rebootOnEnable, containerSupported }

def missing {α : Type} (value : Option α) (problem : Problem) : List Problem :=
  if value.isSome then [] else [problem]

def textFields : List Text :=
  ["name", "title", "description", "help_text"]

def flagFields : List Text :=
  ["is_beta", "enable_by_default", "reboot_on_enable", "container_supported"]

def fieldProblems (index : Number) (fields : List (Text × Json)) : List Problem :=
  (textFields.flatMap fun key => missing (readField? fields key readText?) (.notText index key)) ++
  (flagFields.flatMap fun key => missing (readField? fields key Json.bool?) (.notFlag index key)) ++
  missing (readField? fields "available_by_release" readAvailability?) (.notAvailability index) ++
  missing (readField? fields "required_services" Json.strings?) (.notRequirements index)

def readService (index : Number) (entry : Json) : Except (List Problem) Service :=
  match entry.fields? with
  | none => .error [.notObject index]
  | some fields =>
    match readFields? fields with
    | some service => .ok service
    | none => .error (fieldProblems index fields)

def readEntries (index : Nat) : List Json → List Service × List Problem
  | [] => ([], [])
  | entry :: entries =>
    let rest := readEntries (index + 1) entries
    match readService (.ofInt index) entry with
    | .ok service => (service :: rest.1, rest.2)
    | .error problems => (rest.1, problems ++ rest.2)

def repeatedNames (seen : List Text) : List Text → List Problem
  | [] => []
  | n :: ns =>
    if n ∈ seen then .duplicateName n :: repeatedNames seen ns else repeatedNames (n :: seen) ns

def requirementProblems (names : List Text) (s : Service) : List Problem :=
  s.requiredServices.flatMap fun r =>
    if r = s.name then [.selfRequirement s.name]
    else if r ∈ names then []
    else [.undefinedRequirement s.name r]

def crossProblems (services : List Service) : List Problem :=
  let names := services.map (·.name)
  repeatedNames [] names ++ services.flatMap (requirementProblems names) ++
    (cycles services).map .cycle

def readDocument (document : Json) : Except (List Problem) (List Service) :=
  match (document.get? "services").bind Json.items? with
  | none => .error [.notDocument]
  | some entries =>
    let (services, problems) := readEntries 0 entries
    match problems ++ crossProblems services with
    | [] => .ok services
    | problems => .error problems

end Subscription.Catalog
