import Subscription.Operation.Action
import Subscription.Operation.Request

/-!
The commands of the program, with their arguments and options and what is said about them.
-/

namespace Subscription.CommandLine

def program : String :=
  "pro"

def version : String :=
  "0.1.0"

def purpose : List String :=
  ["Manage Ubuntu Pro services on this machine.",
    "Services are enabled per subscription entitlement and release series."]

inductive Command where
  | change (action : ServiceAction)
  | attach
  | autoAttach
  | detach
  | refresh
  | help
  | status
deriving DecidableEq

inductive Flag where
  | assumeYes
  | format
  | beta
  | noAutoEnable
  | enable
  | enableBeta
  | all
deriving DecidableEq

structure Argument where
  name : String
  description : String
  repeats : Bool

namespace Flag

def long : Flag → String
  | .assumeYes => "--assume-yes"
  | .format => "--format"
  | .beta => "--beta"
  | .noAutoEnable => "--no-auto-enable"
  | .enable => "--enable"
  | .enableBeta => "--enable-beta"
  | .all => "--all"

def placeholder? : Flag → Option String
  | .format => some "<format>"
  | .enable | .enableBeta => some "<service...>"
  | .assumeYes | .beta | .noAutoEnable | .all => none

def term (f : Flag) : String :=
  match f.placeholder? with
  | some p => s!"{f.long} {p}"
  | none => f.long

def repeats : Flag → Bool
  | .enable | .enableBeta => true
  | _ => false

def choices? : Flag → Option (List String)
  | .format => some ["text", "json"]
  | _ => none

def remark : Flag → String
  | .assumeYes | .beta | .all => " (default: false)"
  | .format => " (choices: \"text\", \"json\", default: \"text\")"
  | .noAutoEnable | .enable | .enableBeta => ""

end Flag

namespace Command

def name : Command → String
  | .change action => action.name
  | .attach => "attach"
  | .autoAttach => "auto-attach"
  | .detach => "detach"
  | .refresh => "refresh"
  | .help => "help"
  | .status => "status"

def description : Command → String
  | .change .enable => "Enable one or more Ubuntu Pro services"
  | .change .disable => "Disable one or more Ubuntu Pro services"
  | .attach => "Attach this machine to an Ubuntu Pro subscription"
  | .autoAttach => "Attach this cloud instance using the token its image provides"
  | .detach => "Remove this machine from its Ubuntu Pro subscription"
  | .refresh => "Refresh the subscription contract and entitlements"
  | .help => "Show information about a service"
  | .status => "Show subscription and service status"

def flags : Command → List Flag
  | .change _ => [.assumeYes, .format, .beta]
  | .attach => [.noAutoEnable, .format]
  | .autoAttach => [.enable, .enableBeta, .format]
  | .detach => [.assumeYes, .format]
  | .refresh => [.format]
  | .help => [.format]
  | .status => [.all, .format]

def flagDescription : Command → Flag → String
  | .change action, .assumeYes => s!"Also {action.name} the services this change depends on"
  | _, .assumeYes => "Do not prompt for confirmation"
  | _, .format => "Output format"
  | _, .beta => "Allow beta services"
  | _, .noAutoEnable => "Do not enable the default services after attaching"
  | _, .enable => "Enable these services instead of the defaults"
  | _, .enableBeta => "Also enable these beta services"
  | _, .all => "Include beta services"

def argument? : Command → Option Argument
  | .change _ => some ⟨"service", "Service names (see: pro status)", true⟩
  | .attach => some ⟨"token", "Contract token", false⟩
  | .help => some ⟨"service", "Service name", false⟩
  | .autoAttach | .detach | .refresh | .status => none

def all : List Command :=
  [.change .enable, .change .disable, .attach, .autoAttach, .detach, .refresh, .help, .status]

def ofName? (name : String) : Option Command :=
  all.find? (·.name = name)

end Command

def Argument.term (a : Argument) : String :=
  if a.repeats then s!"[{a.name}...]" else s!"<{a.name}>"

end Subscription.CommandLine
