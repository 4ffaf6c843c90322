import Subscription.Files.Tree
import Subscription.Host.Basic

/-!
A machine as a value: its files as a tree, the processes that run on it, and the streams of the
program's process. Another process may write a file at the moment when one has just been removed.
-/

namespace Subscription

/-- A machine at one moment. -/
structure Machine where
  tree : FileTree
  running : List Int
  /-- The text that another process writes to the place of the next file that is removed. -/
  intruder : Option String
  held : Bool
  calls : List Call
  out : String
  err : String
  answer : String

namespace Machine

def ofTree (tree : FileTree) : Machine :=
  ⟨tree, [], none, false, [], "", "", ""⟩

variable {m : Type → Type} [Monad m] [MonadStateOf Machine m]

def become (change : FileTree → FileTree × Except FileError Unit) : m (Except FileError Unit) := do
  let (tree, result) := change (← getThe Machine).tree
  modifyThe Machine fun w => { w with tree := tree }
  return result

def update (change : FileTree → Except FileError FileTree) : m (Except FileError Unit) :=
  become (·.attempt change)

def intrude (p : Path.Target) : m Unit := do
  match (← getThe Machine).intruder with
  | some text =>
    let _ ← become (·.put p (.file text))
    modifyThe Machine fun w => { w with intruder := none }
  | none => pure ()

def remove (p : Path.Target) : m (Except FileError Unit) := do
  match ← update (·.remove p) with
  | .ok () =>
    intrude p
    return .ok ()
  | .error e => return .error e

def files : FileSystem m where
  read path := return (← getThe Machine).tree.read (Path.target path)
  write path text := update (·.write (Path.target path) text)
  append path text := update (·.append (Path.target path) text)
  create path text := update (·.create (Path.target path) text)
  remove path := remove (Path.target path)
  makeDirs path := update (·.makeDirs (Path.target path))
  isPresent path := return (← getThe Machine).tree.isPresent (Path.target path)

def isRunning (n : Int) : m Bool :=
  return decide (n ∈ (← getThe Machine).running)

def heldCell : Cell m Bool where
  get := return (← getThe Machine).held
  set x := modifyThe Machine fun w => { w with held := x }

def callsCell : Cell m (List Call) where
  get := return (← getThe Machine).calls
  set x := modifyThe Machine fun w => { w with calls := x }

structure Setup where
  pid : Number
  now : String
  newName : String
  environment : List (String × String)
  user : Option Int
  onTerminal : Bool

def host (setup : Setup) : Host m where
  files := files
  isRunning := isRunning
  pid := setup.pid
  now := pure setup.now
  newName := pure setup.newName
  held := heldCell
  calls := callsCell
  setting key := (setup.environment.find? (·.1 = key)).map (·.2)
  user := setup.user
  onTerminal := setup.onTerminal
  out text := modifyThe Machine fun w => { w with out := w.out ++ text }
  err text := modifyThe Machine fun w => { w with err := w.err ++ text }
  readLine := return (← getThe Machine).answer

end Machine

end Subscription
