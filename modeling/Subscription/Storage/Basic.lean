import Subscription.Files.Path
import Subscription.Files.System
import Subscription.Json.Printer
import Subscription.Json.Reader

/-!
Storage for data values and for lines of logs, both by name. There is one on the files below a home
directory and one in memory, which behave alike but for the layout of what they keep.
-/

namespace Subscription

structure Storage (m : Type → Type) where
  /-- The value of a name. What is missing, or cannot be read as a value, counts as none. -/
  read : String → ExceptT Fault m (Option Json)
  write : String → Json → ExceptT Fault m Unit
  append : String → String → ExceptT Fault m Unit

/-- Values and logs in memory. Values are kept in written form. -/
structure Memory where
  values : List (String × String)
  logs : List (String × List String)
  /-- All that was ever written, oldest first. -/
  history : List (String × String)

namespace Memory

def empty : Memory :=
  ⟨[], [], []⟩

def assign {α : Type} (entries : List (String × α)) (name : String) (value : α) :
    List (String × α) :=
  (name, value) :: entries.filter (·.1 ≠ name)

def lookup {α : Type} (entries : List (String × α)) (name : String) : Option α :=
  (entries.find? (·.1 = name)).map (·.2)

@[simp] theorem lookup_assign_self {α : Type} (entries : List (String × α)) (name : String)
    (value : α) : lookup (assign entries name value) name = some value := by
  simp [lookup, assign]

def read (x : Memory) (name : String) : Option Json :=
  (lookup x.values name).bind Json.parse

def write (x : Memory) (name : String) (value : Json) : Memory :=
  let text := value.compact
  { x with values := assign x.values name text, history := x.history ++ [(name, text)] }

def lines (x : Memory) (name : String) : List String :=
  (lookup x.logs name).getD []

def append (x : Memory) (name line : String) : Memory :=
  { x with logs := assign x.logs name (x.lines name ++ [line]) }

theorem read_write_self (x : Memory) (name : String) (value : Json) :
    (x.write name value).read name = Json.parse value.compact := by
  simp [read, write]

end Memory

namespace Storage

variable {m : Type → Type} [Monad m]

def inMemory (cell : Cell m Memory) : Storage m where
  read name := ExceptT.lift do return (← cell.get).read name
  write name value := ExceptT.lift do cell.set ((← cell.get).write name value)
  append name line := ExceptT.lift do cell.set ((← cell.get).append name line)

def valuePath (home name : String) : String :=
  Path.join [Path.join [home, "state"], name]

def logPath (home name : String) : String :=
  Path.join [Path.join [home, "logs"], name]

/-- The storage on the files below a home directory: a file for each value, over several lines, and
a file for each log. -/
def inFiles (files : FileSystem m) (home : String) : Storage m where
  read name := ExceptT.mk do
    match ← files.read (valuePath home name) with
    | .ok text => return .ok (Json.parse text)
    | .error .missing => return .ok none
    | .error e => return .error (.file e)
  write name value := do
    ofFileResult (files.makeDirs (Path.join [home, "state"]))
    ofFileResult (files.write (valuePath home name) value.indented)
  append name line := do
    ofFileResult (files.makeDirs (Path.join [home, "logs"]))
    ofFileResult (files.append (logPath home name) (line ++ "\n"))

end Storage

end Subscription
