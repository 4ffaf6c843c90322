import Subscription.CommandLine.Scan
import Subscription.CommandLine.Usage

/-!
From arguments to what the program is asked to do: to run a command with everything it needs, to
show a text about itself, or nothing that makes sense.
-/

namespace Subscription.CommandLine

inductive Invocation where
  | change (action : ServiceAction) (services : List Text) (assumeYes beta : Bool)
  | attach (token : Text) (autoEnable : Bool)
  | autoAttach (enable enableBeta : List Text)
  | detach (assumeYes : Bool)
  | refresh
  | help (service : Text)
  | status (all : Bool)

inductive Intent where
  | run (invocation : Invocation) (format : Format)
  | inform (text : Text)
  | refuse (text : Text)

def Given.format (g : Given) : Format :=
  if (g.values .format).getLast? = some "json" then .json else .text

def requireOperand (c : Command) : List String → Except UsageError Text
  | operand :: _ => .ok operand
  | [] => .error (.missingArgument ((c.argument?.map (·.name)).getD ""))

def Command.invocation (c : Command) (g : Given) : Except UsageError Invocation := do
  match c with
  | .change action =>
    return .change action (g.operands.map Text.ofString) (g.has .assumeYes) (g.has .beta)
  | .attach => return .attach (← requireOperand c g.operands) (!g.has .noAutoEnable)
  | .autoAttach => return .autoAttach (g.values .enable) (g.values .enableBeta)
  | .detach => return .detach (g.has .assumeYes)
  | .refresh => return .refresh
  | .help => return .help (← requireOperand c g.operands)
  | .status => return .status (g.has .all)

def mainOptions : List String :=
  ["--version", "--help"]

/-- What a command is asked to do, given the operands before the first option and the arguments from
there on. A request for help comes before an option that is not known, and that before an argument
that is missing. -/
def Command.parse (c : Command) (operands others : List String) : Except UsageError Intent := do
  let g ← scan c.flags .empty none others
  if g.unknown.any asksForHelp then return .inform c.page
  match g.unknown with
  | word :: _ => throw (.unknownOption word (c.flags.map Flag.long ++ "--help" :: mainOptions))
  | [] =>
    return .run (← c.invocation { g with operands := operands ++ g.operands }) g.format

def parseOptions : List String → Except UsageError Intent
  | [] => return .refuse mainPage
  | word :: rest =>
    if (word :: rest).any asksForHelp then return .inform mainPage
    else throw (.unknownOption word mainOptions)

def parseNamed (name : String) (operands others : List String) : Except UsageError Intent :=
  match Command.ofName? name with
  | some c => c.parse operands others
  | none =>
    if others.any asksForHelp then return .inform mainPage else throw (.unknownCommand name)

def parse (args : List String) : Intent :=
  if (args.takeWhile (· ≠ dashes)).any asksForVersion then .inform version
  else
    let (operands, others) := splitArguments args
    let result := match operands with
      | [] => parseOptions others
      | name :: operands => parseNamed name operands others
    match result with
    | .ok intent => intent
    | .error e => .refuse e.text

end Subscription.CommandLine
