import Subscription.CommandLine.Console

/-!
A console that keeps what is written instead of showing it, and that answers every question alike.
-/

namespace Subscription.CommandLine

structure Transcript where
  out : List Text
  err : List Text
  questions : List Text
  managers : Nat

namespace Transcript

def empty : Transcript :=
  ⟨[], [], [], 0⟩

structure Setup where
  isRoot : Bool
  color : Bool
  answer : Bool

variable {m : Type → Type} [Monad m] [MonadStateOf Transcript m]

def console (setup : Setup) (manager : ExceptT Fault m (Manager m)) : Console m where
  out text := modifyThe Transcript fun t => { t with out := t.out ++ [text] }
  err text := modifyThe Transcript fun t => { t with err := t.err ++ [text] }
  isRoot := setup.isRoot
  confirm question := do
    modifyThe Transcript fun t => { t with questions := t.questions ++ [question] }
    return setup.answer
  color := setup.color
  manager := do
    modifyThe Transcript fun t => { t with managers := t.managers + 1 }
    manager

end Transcript

end Subscription.CommandLine
