import Subscription.Catalog.Service

/-!
Cycles among the requirements of services. A depth-first search follows the requirements from each
service in turn; every step back onto the current path closes a cycle, which is reported from the
place on the path where it starts.
-/

namespace Subscription.Catalog

/-- The names whose requirements have been followed to the end, and the cycles met so far. -/
structure CycleSearch where
  finished : List Text
  cycles : List (List Text)

/-- Follows the requirements of a name at the end of a path. The names of a path are distinct, and
all but the last one have requirements, so the number of services bounds its length. -/
def follow (requirements : Text → List Text) :
    Nat → List Text → Text → CycleSearch → CycleSearch
  | 0, _, _, s => s
  | fuel + 1, path, name, s =>
    if name ∈ s.finished then s
    else match path.dropWhile (· ≠ name) with
      | [] =>
        let s := (requirements name).foldl
          (fun s r => follow requirements fuel (path ++ [name]) r s) s
        { s with finished := name :: s.finished }
      | start :: rest => { s with cycles := s.cycles ++ [start :: rest ++ [name]] }

def otherRequirements (services : List Service) (name : Text) : List Text :=
  match services.reverse.find? (·.name = name) with
  | some s => s.requiredServices.filter (· ≠ name)
  | none => []

/-- The cycles among the services that require something other than themselves. Each one starts and
ends with the same name. -/
def cycles (services : List Service) : List (List Text) :=
  (services.foldl
    (fun s service =>
      follow (otherRequirements services) (services.length + 1) [] service.name s)
    ⟨[], []⟩).cycles

end Subscription.Catalog
