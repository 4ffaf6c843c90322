import Subscription.CommandLine.Command
import Subscription.CommandLine.Suggestion

/-!
Arguments taken apart. The program's own scan finds the operands, the first of which names the
command, and leaves everything from the first option on to that command. The command's scan then
gives values to its options and finds further operands, up to the first option that it does not
know.
-/

namespace Subscription.CommandLine

inductive UsageError where
  | missingValue (flag : Flag)
  | wrongValue (flag : Flag) (value : String) (choices : List String)
  | unknownOption (word : String) (known : List String)
  | unknownCommand (word : String)
  | missingArgument (name : String)

def UsageError.text : UsageError → Text
  | .missingValue flag => "error: option '" ++ flag.term ++ "' argument missing"
  | .wrongValue flag value choices =>
    "error: option '" ++ flag.term ++ "' argument '" ++ value ++
      "' is invalid. Allowed choices are " ++ String.intercalate ", " choices ++ "."
  | .unknownOption word known =>
    "error: unknown option '" ++ word ++ "'" ++
      if hasDashes word then didYouMean word (known.map Text.ofString) else ""
  | .unknownCommand word =>
    "error: unknown command '" ++ word ++ "'" ++
      didYouMean word (Command.all.map fun c => c.name)
  | .missingArgument name => "error: missing required argument '" ++ name ++ "'"

def isOption (arg : String) : Bool :=
  match arg.toList with
  | '-' :: _ :: _ => true
  | _ => false

/-- The operands before the first option, and the arguments from there on. Two dashes alone end the
options and are dropped when no option came before. -/
def splitArguments : List String → List String × List String
  | [] => ([], [])
  | arg :: rest =>
    if arg = dashes then (rest, [])
    else if isOption arg then ([], arg :: rest)
    else
      let (operands, others) := splitArguments rest
      (arg :: operands, others)

def asksForVersion (arg : String) : Bool :=
  arg = "--version" || ['-', 'V'].isPrefixOf arg.toList

def asksForHelp (arg : String) : Bool :=
  arg = "-h" || arg = "--help"

structure Given where
  /-- The options in the order in which they were given; one without a value has an empty text. -/
  settings : List (Flag × String)
  operands : List String
  /-- The first option that the command does not know, and all that was not taken after it. -/
  unknown : List String

namespace Given

def empty : Given :=
  ⟨[], [], []⟩

def addWords (g : Given) (words : List String) : Given :=
  if g.unknown.isEmpty then { g with operands := g.operands ++ words }
  else { g with unknown := g.unknown ++ words }

def addUnknown (g : Given) (word : String) : Given :=
  { g with unknown := g.unknown ++ [word] }

/-- Adds what follows two dashes alone. The dashes are kept behind an option that is not known. -/
def addRest (g : Given) (rest : List String) : Given :=
  if g.unknown.isEmpty then g.addWords rest else g.addWords (dashes :: rest)

def assign (g : Given) (flag : Flag) (value : String) : Except UsageError Given :=
  match flag.choices? with
  | some choices =>
    if value ∈ choices then .ok { g with settings := g.settings ++ [(flag, value)] }
    else .error (.wrongValue flag value choices)
  | none => .ok { g with settings := g.settings ++ [(flag, value)] }

def values (g : Given) (flag : Flag) : List Text :=
  (g.settings.filter (·.1 = flag)).map fun s => s.2

def has (g : Given) (flag : Flag) : Bool :=
  g.settings.any (·.1 = flag)

end Given

def assignment? (flags : List Flag) (arg : String) : Option (Flag × String) :=
  let cs := arg.toList
  let name := cs.takeWhile (· ≠ '=')
  if name = cs then none
  else match flags.find? fun f => f.long = String.ofList name && f.placeholder?.isSome with
    | some flag => some (flag, String.ofList (cs.drop (name.length + 1)))
    | none => none

/-- Scans arguments; `active` is an option that takes further values. -/
def scan (flags : List Flag) : Given → Option Flag → List String → Except UsageError Given
  | g, _, [] => .ok g
  | g, active, arg :: rest =>
    if arg = dashes then .ok (g.addRest rest)
    else if !isOption arg then
      match active with
      | some flag => do scan flags (← g.assign flag arg) active rest
      | none => scan flags (g.addWords [arg]) none rest
    else match flags.find? (·.long = arg) with
      | some flag =>
        if flag.placeholder?.isNone then do scan flags (← g.assign flag "") none rest
        else match rest with
          | [] => .error (.missingValue flag)
          | value :: rest => do
            scan flags (← g.assign flag value) (if flag.repeats then some flag else none) rest
      | none =>
        match assignment? flags arg with
        | some (flag, value) => do scan flags (← g.assign flag value) none rest
        | none => scan flags (g.addUnknown arg) none rest

end Subscription.CommandLine
