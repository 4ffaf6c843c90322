import Subscription.Operation.Report

/-!
The running tally of an operation. What happens to each service, and every error and warning, is
added at the end; whether the operation failed is never recorded but read off the tally.
-/

namespace Subscription

inductive Outcome where
  | success
  | failure
  | skipped
deriving DecidableEq

def Outcome.name : Outcome → Text
  | .success => "success"
  | .failure => "failure"
  | .skipped => "skipped"

structure Tally where
  outcomes : List (Text × Outcome)
  errors : List Entry
  warnings : List Entry
  needsReboot : Bool

namespace Tally

def empty : Tally :=
  ⟨[], [], [], false⟩

def succeed (t : Tally) (service : Text) : Tally :=
  { t with outcomes := t.outcomes ++ [(service, .success)] }

def fail (t : Tally) (service : Text) (e : Entry) : Tally :=
  { t with outcomes := t.outcomes ++ [(service, .failure)], errors := t.errors ++ [e] }

def skip (t : Tally) (service : Text) : Tally :=
  { t with outcomes := t.outcomes ++ [(service, .skipped)] }

def addError (t : Tally) (e : Entry) : Tally :=
  { t with errors := t.errors ++ [e] }

def addWarning (t : Tally) (e : Entry) : Tally :=
  { t with warnings := t.warnings ++ [e] }

def requireReboot (t : Tally) : Tally :=
  { t with needsReboot := true }

def carriesOver (withFailures : Bool) : Outcome → Bool
  | .success => true
  | .failure => withFailures
  | .skipped => false

/-- Adds another tally. Successes, warnings and a needed reboot always carry over, failures and
errors on demand. -/
def absorb (t other : Tally) (withFailures : Bool) : Tally :=
  { outcomes := t.outcomes ++ other.outcomes.filter fun o => carriesOver withFailures o.2
    errors := if withFailures then t.errors ++ other.errors else t.errors
    warnings := t.warnings ++ other.warnings
    needsReboot := t.needsReboot || other.needsReboot }

def withOutcome (t : Tally) (o : Outcome) : List Text :=
  (t.outcomes.filter fun x => x.2 = o).map (·.1)

@[simp] theorem withOutcome_fail (t : Tally) (service : Text) (e : Entry) (o : Outcome) :
    (t.fail service e).withOutcome o =
      t.withOutcome o ++ if o = .failure then [service] else [] := by
  cases o <;> simp [withOutcome, fail]

/-- The report on what was recorded: a failure when there is an error or a failed service. -/
def report (t : Tally) : Report :=
  { verdict :=
      if t.errors.isEmpty && (t.withOutcome .failure).isEmpty then .success else .failure
    processed := t.withOutcome .success
    failed := t.withOutcome .failure
    errors := t.errors
    warnings := t.warnings
    needsReboot := t.needsReboot }

end Tally

def Report.blocked (e : Entry) : Report :=
  (Tally.empty.addError e).report

end Subscription
