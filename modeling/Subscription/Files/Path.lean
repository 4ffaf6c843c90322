import Subscription.Characters.Blank

/-!
Paths. A path is a series of steps between slashes; empty steps and single dots lead nowhere, and
two dots lead one step back. All of this is decided on the text alone. A path that ends in a slash
asks for a directory.
-/

namespace Subscription.Path

def steps (path : String) : List String :=
  (Characters.pieces '/' path.toList).map String.ofList

/-- Takes the steps one after the other, with the steps taken so far in reverse. A step back from
the start is kept if `keepUp`, and has no effect otherwise. -/
def follow (keepUp : Bool) : List String → List String → List String
  | taken, [] => taken.reverse
  | taken, step :: rest =>
    if step = "" ∨ step = "." then follow keepUp taken rest
    else if step = ".." then
      match taken with
      | [] => follow keepUp (if keepUp then [".."] else []) rest
      | last :: earlier =>
        if last = ".." then follow keepUp (".." :: taken) rest else follow keepUp earlier rest
    else follow keepUp (step :: taken) rest

/-- The steps from the root to a path. A path that does not begin with a slash counts from the root
too. -/
def fromRoot (path : String) : List String :=
  follow false [] (steps path)

def endsOpen (path : String) : Bool :=
  path.toList.getLast? = some '/'

structure Target where
  steps : List String
  /-- Whether only a directory will do there. -/
  directory : Bool

def target (path : String) : Target :=
  ⟨fromRoot path, endsOpen path⟩

def ofSteps (steps : List String) : String :=
  "/" ++ String.intercalate "/" steps

def normalize (path : String) : String :=
  let isAbsolute := path.toList.head? = some '/'
  let body := String.intercalate "/" (follow (!isAbsolute) [] (steps path))
  if body = "" then
    if isAbsolute then "/" else if endsOpen path then "./" else "."
  else (if isAbsolute then "/" else "") ++ body ++ (if endsOpen path then "/" else "")

def join (paths : List String) : String :=
  normalize (String.intercalate "/" (paths.filter (· ≠ "")))

end Subscription.Path
