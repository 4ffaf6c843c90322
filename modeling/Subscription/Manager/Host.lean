import Subscription.Catalog.Bundled
import Subscription.Host.Basic
import Subscription.Host.Config
import Subscription.Host.Contracts
import Subscription.Host.Home
import Subscription.Manager.Basic

/-!
The manager of a real machine: all that it works with comes from files, as the configuration says.
-/

namespace Subscription.Host

variable {m : Type → Type} [Monad m]

def fileLock (host : Host m) (home : String) : FileLock m where
  files := host.files
  path := FileLock.pathIn home
  pid := host.pid
  now := host.now
  isRunning := host.isRunning
  held := host.held

def managerFor (host : Host m) (home : String) (config : Config) (inContainer : Bool)
    (series : Text) : Manager m where
  catalog := Catalog.bundled
  series := series
  allowBeta := config.allowBeta
  handler := Handler.system inContainer
  calls := host.calls
  storage := Storage.inFiles host.files home
  lock := (host.fileLock home).lock
  contracts := contractFor host.files config.contractFile.toString
  instanceToken := instanceToken host.files config.instanceFile.toString
  now := host.now
  nextEvent := if config.logOperations then some host.newName else none

def buildManager (host : Host m) : ExceptT Fault m (Manager m × List Config.Warning) := do
  let home := chooseHome none (host.setting homeVariable)
  prepareHome host.files home
  let (config, warnings) ← Config.load host.files home
  let inContainer ← ExceptT.lift (isContainer host.files config.runDir.toString)
  let series ← match config.series with
    | some series => pure series
    | none => OsRelease.detectSeries host.files config.osReleasePath
  return (host.managerFor home config inContainer series, warnings)

end Subscription.Host
