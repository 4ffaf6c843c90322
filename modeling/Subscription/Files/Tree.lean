import Subscription.Files.Error
import Subscription.Files.Path
import Subscription.Text.Basic

/-!
A tree of files and directories as a value. The operations fail in the way that those of a real file
system do: on what is missing, on a directory in place of a file, and on a path that leads through a
file.
-/

namespace Subscription

inductive FileNode where
  | file (text : String)
  | directory
deriving DecidableEq

/-- The files and directories below a root, each under the steps that lead to it. -/
structure FileTree where
  nodes : List (List String × FileNode)

namespace FileTree

def empty : FileTree :=
  ⟨[]⟩

/-- What stands at the end of some steps; the root is always there. -/
def find? (t : FileTree) (steps : List String) : Option FileNode :=
  if steps = [] then some .directory else (t.nodes.find? (·.1 = steps)).map (·.2)

def erase (t : FileTree) (steps : List String) : FileTree :=
  ⟨t.nodes.filter (·.1 ≠ steps)⟩

def set (t : FileTree) (steps : List String) (node : FileNode) : FileTree :=
  ⟨(steps, node) :: (t.erase steps).nodes⟩

@[simp] theorem find?_nil (t : FileTree) : t.find? [] = some .directory := rfl

theorem find?_erase_of_ne (t : FileTree) {steps other : List String} (h : other ≠ steps) :
    (t.erase steps).find? other = t.find? other := by
  simp only [find?, erase, List.find?_filter]
  congr 3
  funext n
  by_cases hn : n.1 = other <;> simp [hn, h]

theorem find?_erase_self (t : FileTree) {steps : List String} (h : steps ≠ []) :
    (t.erase steps).find? steps = none := by
  simp [find?, erase, h]

theorem find?_set_self (t : FileTree) {steps : List String} (node : FileNode) (h : steps ≠ []) :
    (t.set steps node).find? steps = some node := by
  simp [find?, set, h]

theorem find?_set_of_ne (t : FileTree) {steps other : List String} (node : FileNode)
    (h : other ≠ steps) : (t.set steps node).find? other = t.find? other := by
  rw [← find?_erase_of_ne t h]
  simp [find?, set, Ne.symm h]

/-- Goes on from where `taken` has led. -/
def walk (t : FileTree) (taken : List String) : List String → Except FileError FileNode
  | [] =>
    match t.find? taken with
    | some node => .ok node
    | none => .error .missing
  | step :: rest =>
    match t.find? taken with
    | some .directory => walk t (taken ++ [step]) rest
    | some (.file _) => .error .notDirectory
    | none => .error .missing

def reach (t : FileTree) (p : Path.Target) : Except FileError FileNode :=
  match t.walk [] p.steps with
  | .ok (.file text) => if p.directory then .error .notDirectory else .ok (.file text)
  | result => result

def read (t : FileTree) (p : Path.Target) : Except FileError String :=
  match t.reach p with
  | .ok (.file text) => .ok text
  | .ok .directory => .error .isDirectory
  | .error e => .error e

def make (t : FileTree) (steps : List String) (text : String) : Except FileError FileTree :=
  match t.walk [] steps.dropLast with
  | .ok _ => .ok (t.set steps (.file text))
  | .error e => .error e

/-- Why no file is written to the end of some steps when that has to be a directory. What stands in
the way there comes first. -/
def obstacle (t : FileTree) (steps : List String) : FileError :=
  match t.walk [] steps.dropLast with
  | .ok .directory => .isDirectory
  | .ok (.file _) => .notDirectory
  | .error e => e

/-- Gives a file the text that `change` makes of the one it has; a new file has no text before. -/
def modify (t : FileTree) (p : Path.Target) (change : String → String) :
    Except FileError FileTree :=
  if p.directory then .error (t.obstacle p.steps)
  else match t.reach p with
    | .ok (.file text) => .ok (t.set p.steps (.file (change text)))
    | .ok .directory => .error .isDirectory
    | .error .missing => t.make p.steps (change "")
    | .error e => .error e

def write (t : FileTree) (p : Path.Target) (text : String) : Except FileError FileTree :=
  t.modify p fun _ => text

def append (t : FileTree) (p : Path.Target) (text : String) : Except FileError FileTree :=
  t.modify p (· ++ text)

def create (t : FileTree) (p : Path.Target) (text : String) : Except FileError FileTree :=
  if p.directory then .error (t.obstacle p.steps)
  else match t.reach p with
    | .ok _ => .error .taken
    | .error .missing => t.make p.steps text
    | .error e => .error e

def remove (t : FileTree) (p : Path.Target) : Except FileError FileTree :=
  match t.reach p with
  | .ok (.file _) => .ok (t.erase p.steps)
  | .ok .directory => .error .notRemovable
  | .error .missing => .ok t
  | .error e => .error e

/-- Makes the directories along some steps, going on from where `taken` has led. A file at the end
is in the way of the last one as `last` says. -/
def makeDirsFrom (t : FileTree) (last : FileError) (taken : List String) :
    List String → Except FileError FileTree
  | [] => .ok t
  | step :: rest =>
    let here := taken ++ [step]
    match t.find? here with
    | some .directory => makeDirsFrom t last here rest
    | some (.file _) => .error (if rest = [] then last else .notDirectory)
    | none => makeDirsFrom (t.set here .directory) last here rest

def makeDirs (t : FileTree) (p : Path.Target) : Except FileError FileTree :=
  t.makeDirsFrom (if p.directory then .notDirectory else .taken) [] p.steps

def isPresent (t : FileTree) (p : Path.Target) : Bool :=
  (t.reach p).isOk

def prune (t : FileTree) (steps : List String) : FileTree :=
  ⟨t.nodes.filter fun n => !steps.isPrefixOf n.1⟩

def attempt (t : FileTree) (change : FileTree → Except FileError FileTree) :
    FileTree × Except FileError Unit :=
  match change t with
  | .ok changed => (changed, .ok ())
  | .error e => (t, .error e)

/-- Puts a file or a directory into the tree, and the directories above it. These stay where the
file cannot be made. -/
def put (t : FileTree) (p : Path.Target) (node : FileNode) : FileTree × Except FileError Unit :=
  match node with
  | .directory => t.attempt (·.makeDirs p)
  | .file text =>
    match t.attempt (·.makeDirs ⟨p.steps.dropLast, false⟩) with
    | (above, .ok ()) => above.attempt (·.write p text)
    | failed => failed

def toList (t : FileTree) : List (String × FileNode) :=
  (t.nodes.map fun n => (Path.ofSteps n.1, n.2)).mergeSort fun a b => Text.le a.1 b.1

end FileTree

end Subscription
