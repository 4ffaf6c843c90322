import Subscription.Files.Path
import Subscription.Files.System

/-!
Whether a machine is a container. Those who run containers leave marks in the directory of run-time
files.
-/

namespace Subscription.Host

def containerMarks (runDir : String) : List String :=
  [Path.join [runDir, "container_type"], Path.join [runDir, "systemd", "container"]]

def isContainer {m : Type → Type} [Monad m] (files : FileSystem m) (runDir : String) : m Bool :=
  (containerMarks runDir).anyM files.isPresent

def defaultRunDir : String :=
  "/run"

end Subscription.Host
