import Subscription.CommandLine.Console
import Subscription.CommandLine.Parse

/-!
The commands at work. A command gives the exit code of the program: zero when it has succeeded, and
one when it has failed, was given up, or was not called properly.
-/

namespace Subscription.CommandLine

variable {m : Type → Type} [Monad m]

def attachedLine (contract : ContractRecord) : Text :=
  "This machine is now attached to '" ++ contract.name ++ "'"

def Console.announce (c : Console m) (a : Attachment) : m Unit :=
  match a.contract with
  | some contract => c.out (c.styled .heading (attachedLine contract))
  | none => pure ()

def Console.listEnabled (c : Console m) (a : Attachment) : m Unit :=
  if a.enabled.isEmpty then pure ()
  else c.errLines
    ("Detach will disable the following services:" :: a.enabled.map fun n => "    " ++ n)

/-- Whether a detach goes ahead: it does if it needs no consent or gets it. -/
def Console.agreesToDetach (c : Console m) (a : Attachment) (assumeYes : Bool) : m Bool := do
  if !a.attached || assumeYes then return true
  c.listEnabled a
  if ← c.confirm "Are you sure? (y/N) " then return true
  c.err "Aborted."
  return false

def execute (c : Console m) (format : Format) : Invocation → ExceptT Fault m Nat
  | .change action services assumeYes beta => do
    let mgr ← c.manager
    let done ← mgr.perform (.change action services assumeYes beta)
    c.printReport done.report action.toAction format
  | .attach token autoEnable => do
    let mgr ← c.manager
    let done ← mgr.perform (.attach token autoEnable)
    let code ← c.printReport done.report .attach format
    if format = .text && done.report.errors.all (·.service.isSome) then
      c.announce done.attachment
    return code
  | .autoAttach enable enableBeta => do
    let mgr ← c.manager
    let done ← mgr.perform (.autoAttach ⟨enable, enableBeta, none⟩)
    let code ← c.printReport done.report .autoAttach format
    if format = .text && code = 0 then c.announce done.attachment
    return code
  | .detach assumeYes => do
    let mgr ← c.manager
    let before ← mgr.attachment
    if !(← c.agreesToDetach before assumeYes) then return 1
    let done ← mgr.perform .detach
    let code ← c.printReport done.report .detach format
    if format = .text && before.attached && !done.attachment.attached then
      c.out "This machine is now detached."
    return code
  | .refresh => do
    let mgr ← c.manager
    let done ← mgr.perform .refresh
    let code ← c.printReport done.report .refresh format
    if format = .text && code = 0 then c.out "Successfully refreshed your subscription."
    return code
  | .help service => do
    let mgr ← c.manager
    let page ← mgr.help service
    c.out (match format with
      | .json => page.toJson.indented
      | .text => page.text)
    return 0
  | .status all => do
    let mgr ← c.manager
    let status ← mgr.status (if all then some true else none)
    match format, status.lines with
    | .json, _ => c.out status.toJson.indented
    | .text, [] => pure ()
    | .text, heading :: rest => c.outLines (c.styled .heading heading :: rest)
    return 0

def operatorText? (f : Fault) : Option Text :=
  if f.code?.isSome then f.text? else none

/-- Runs a command; a fault that is meant for the operator ends it with a line about it. -/
def executeReporting (c : Console m) (format : Format) (i : Invocation) : ExceptT Fault m Nat :=
  tryCatch (execute c format i) fun f =>
    match operatorText? f with
    | some text => do
      c.err (c.styled .error text)
      return 1
    | none => throw f

/-- The program. Nobody but the superuser gets further than the first line. -/
def run (c : Console m) (args : List String) : ExceptT Fault m Nat := do
  if !c.isRoot then
    c.err (c.styled .error Message.notRoot.text)
    return 1
  match parse args with
  | .inform text =>
    c.out text
    return 0
  | .refuse text =>
    c.err text
    return 1
  | .run i format => executeReporting c format i

end Subscription.CommandLine
