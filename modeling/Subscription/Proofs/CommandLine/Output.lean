import Subscription.CommandLine.Process
import Subscription.Proofs.Manager.Quiet
import Subscription.Proofs.View.Documents

/-!
What a command writes to the output stream when programs read it. Of the listings, questions, warnings and
closing lines of the commands none goes to that stream then: it has the report of the operation and
nothing else, and nothing at all when there is no report.
-/

namespace Subscription.CommandLine

variable {σ ω : Type}

def Invocation.operation? : Invocation → Option Operation
  | .change action services assumeYes beta => some (.change action services assumeYes beta)
  | .attach token autoEnable => some (.attach token autoEnable)
  | .autoAttach enable enableBeta => some (.autoAttach ⟨enable, enableBeta, none⟩)
  | .detach _ => some .detach
  | .refresh => some .refresh
  | .help _ | .status _ => none

namespace Console

/-! ### Commands without their reports -/

section Attempt

variable {m : Type → Type} [Monad m]

def agrees (c : Console m) (mgr : Manager m) : Invocation → ExceptT Fault m Bool
  | .detach assumeYes => do
    let before ← mgr.attachment
    c.agreesToDetach before assumeYes
  | _ => pure true

/-- What a command does before there is anything to report. Without the consent of the operator nothing is
performed. -/
def attempt (c : Console m) (i : Invocation) (op : Operation) : ExceptT Fault m (Option Performed) := do
  let mgr ← c.manager
  if ← c.agrees mgr i then return some (← mgr.perform op) else return none

/-- A command whose report programs read adds that report to what it does, and no more. -/
theorem execute_json [LawfulMonad m] (c : Console m) {i : Invocation} {op : Operation}
    (hop : i.operation? = some op) : execute c .json i = (do
      match ← c.attempt i op with
      | some done => c.printReport done.report op.action .json
      | none => return 1) := by
  cases i
  -- Only a detach looks at the attachment and asks before it is performed.
  case detach assumeYes =>
    cases hop
    simp only [execute, attempt, agrees, reduceCtorEq, bind_assoc]
    refine bind_congr fun mgr => bind_congr fun before => bind_congr fun agreed => ?_
    cases agreed <;> simp [Operation.action]
  all_goals
    cases hop
    all_goals simp [execute, attempt, agrees, Operation.action]

end Attempt

/-! ### The output stream -/

/-- The output stream of a console can be read off the state: a text that is written is added to it, and
nothing else that goes on adds anything. -/
structure Exposes (c : Console (StateM σ)) (output : σ → ω) (add : ω → Text → ω) : Prop where
  out : ∀ text s, output ((c.out text).run s).2 = add (output s) text
  err : ∀ text, Leaves output (c.err text)
  confirm : ∀ question, Leaves output (c.confirm question)
  manager : Keeps output c.manager
  quiet : Yields c.manager (·.Quiet output)

namespace Exposes

variable {c : Console (StateM σ)} {output : σ → ω} {add : ω → Text → ω}

theorem leaves_errLines (h : c.Exposes output add) (lines : List Text) :
    Leaves output (c.errLines lines) := by
  induction lines with
  | nil => exact leaves_pure ()
  | cons line lines ih => exact leaves_bind (h.err line) fun _ => ih

theorem leaves_agreesToDetach (h : c.Exposes output add) (a : Attachment) (assumeYes : Bool) :
    Leaves output (c.agreesToDetach a assumeYes) := by
  have hlist : Leaves output (c.listEnabled a) := by
    unfold listEnabled
    split
    · exact leaves_pure ()
    · exact h.leaves_errLines _
  unfold agreesToDetach
  split
  · exact leaves_pure true
  · refine leaves_bind hlist fun _ => leaves_bind (h.confirm _) fun answer => ?_
    cases answer with
    | true => exact leaves_pure true
    | false => exact leaves_bind (h.err _) fun _ => leaves_pure false

theorem keeps_agrees (h : c.Exposes output add) {mgr : Manager (StateM σ)} (quiet : mgr.Quiet output)
    (i : Invocation) : Keeps output (c.agrees mgr i) := by
  cases i
  case detach assumeYes =>
    exact keeps_bind quiet.keeps_attachment fun before => keeps_lift (h.leaves_agreesToDetach before _)
  all_goals exact keeps_pure true

theorem keeps_attempt (h : c.Exposes output add) (i : Invocation) (op : Operation) :
    Keeps output (c.attempt i op) := by
  refine keeps_bind_of_yields h.manager h.quiet fun mgr quiet =>
    keeps_bind (h.keeps_agrees quiet i) fun agreed => ?_
  cases agreed with
  | true => exact keeps_bind (quiet.keeps_perform op) fun done => keeps_pure _
  | false => exact keeps_pure none

end Exposes

end Console

theorem operatorText?_eq_none_iff {f : Fault} : operatorText? f = none ↔ f.code? = none := by
  cases f <;> simp [operatorText?, Fault.code?, Fault.text?, Fault.message?]

/-- Where the superuser asks for a report that programs read, the program is the command with its report;
a fault that is meant for the operator ends it. -/
theorem exec_run_json {c : Console (StateM σ)} (root : c.isRoot = true) {args : List String}
    {i : Invocation} (hparse : parse args = .run i .json) {op : Operation}
    (hop : i.operation? = some op) (s : σ) :
    exec (run c args) s =
      match exec (c.attempt i op) s with
      | (.ok (some done), t) =>
        (.ok (Console.exitCode done.report), ((c.out done.report.toJson.indented).run t).2)
      | (.ok none, t) => (.ok 1, t)
      | (.error f, t) =>
        match operatorText? f with
        | some text => (.ok 1, ((c.err (c.styled .error text)).run t).2)
        | none => (.error f, t) := by
  have hrun : run c args = executeReporting c .json i := by simp [run, root, hparse]
  rw [hrun, executeReporting, exec_tryCatch, c.execute_json hop, exec_bind]
  rcases exec (c.attempt i op) s with ⟨f | _ | done, t⟩
  · dsimp only
    cases operatorText? f <;> rfl
  · rfl
  · rfl

/-! ### Processes -/

/-- What a process has written to its output stream can be read off the state, when nothing below the
process writes to that stream. -/
theorem exposes_hostConsole {host : Host (StateM σ)} {output : σ → String} (leaves : host.Leaves output)
    (out : ∀ text s, output ((host.out text).run s).2 = output s ++ text)
    (err : ∀ text, Leaves output (host.err text)) (readLine : Leaves output host.readLine) :
    (hostConsole host).Exposes output fun before text => before ++ (text.toString ++ "\n") where
  out text := out _
  err text := err _
  confirm question := leaves_bind (err _) fun _ => leaves_bind readLine fun _ => leaves_pure _
  manager := by
    refine keeps_bind leaves.keeps_buildManager fun made => keeps_bind ?_ fun _ => keeps_pure _
    induction made.2 with
    | nil => exact keeps_pure _
    | cons w ws ih => exact keeps_bind (keeps_lift (err _)) fun _ => ih
  quiet := yields_bind leaves.yields_buildManager fun made quiet =>
    yields_bind' fun _ => yields_pure quiet

theorem exposes_machine (setup : Machine.Setup) :
    (hostConsole (Machine.host setup : Host (StateM Machine))).Exposes Machine.out
      fun before text => before ++ (text.toString ++ "\n") :=
  exposes_hostConsole (Machine.leaves_host setup) (fun _ _ => rfl) (fun _ _ => rfl) fun _ => rfl

/-! ### Reports for programs -/

/-- When the superuser asks for a report that programs read, the output stream gets the report of the
operation and nothing else, and the program succeeds when the operation does. Where nothing is performed,
because the operator has not agreed or because of a fault, the stream gets nothing; the program fails, or
passes on a fault that is not meant for the operator. -/
theorem output_json {c : Console (StateM σ)} {output : σ → ω} {add : ω → Text → ω}
    (exposes : c.Exposes output add) (root : c.isRoot = true) {args : List String} {i : Invocation}
    (hparse : parse args = .run i .json) {op : Operation} (hop : i.operation? = some op) (s : σ) :
    (∀ done t, exec (c.attempt i op) s = (.ok (some done), t) →
      ∃ code u, exec (run c args) s = (.ok code, u) ∧ (code = 0 ↔ done.report.verdict = .success) ∧
        output u = add (output s) done.report.toJson.indented ∧
        (Json.parse done.report.toJson.indented).bind Report.ofJson? = some done.report) ∧
    (∀ t, exec (c.attempt i op) s = (.ok none, t) →
      ∃ u, exec (run c args) s = (.ok 1, u) ∧ output u = output s) ∧
    ∀ f t, exec (c.attempt i op) s = (.error f, t) →
      ∃ result u, exec (run c args) s = (result, u) ∧ output u = output s ∧
        (f.code?.isSome → result = .ok 1) ∧ (f.code? = none → result = .error f) := by
  have hquiet : output (exec (c.attempt i op) s).2 = output s := exposes.keeps_attempt i op s
  refine ⟨fun done t h => ?_, fun t h => ?_, fun f t h => ?_⟩
  all_goals
    rw [h] at hquiet
    rw [exec_run_json root hparse hop, h]
  · refine ⟨_, _, rfl, ?_, ?_, ?_⟩
    · cases hverdict : done.report.verdict <;> simp [Console.exitCode, hverdict]
    · rw [exposes.out, hquiet]
    · exact Report.faithful_document.read_back done.report
  · exact ⟨_, rfl, hquiet⟩
  · dsimp only
    cases htext : operatorText? f with
    | some text =>
      refine ⟨_, _, rfl, (exposes.err _ t).trans hquiet, fun _ => rfl, fun hcode => ?_⟩
      rw [operatorText?_eq_none_iff.mpr hcode] at htext
      cases htext
    | none =>
      have hcode := operatorText?_eq_none_iff.mp htext
      exact ⟨_, _, rfl, hquiet, by simp [hcode], fun _ => rfl⟩

def rootSetup : Machine.Setup :=
  ⟨.ofInt 7, "2026-01-01T00:00:00.000Z", "e", [("PRO_HOME", "/pro")], some 0, false⟩

def subscribed : Machine :=
  .ofTree ⟨[(["pro"], .directory), (["pro", "config.json"], .file "\x7b\"series\": \"jammy\"\x7d"),
    (["pro", "state"], .directory), (["pro", "state", "attachment.json"], .file
      (Attachment.toJson ⟨true, ["livepatch"], [], some ⟨"k", "t", "", none⟩⟩).compact)]⟩

theorem output_json_subscribed :
    ∃ (done : Performed) (code : Nat) (u : Machine),
      exec (runProcess (Machine.host rootSetup) ["detach", "--assume-yes", "--format", "json"])
        subscribed = (.ok code, u) ∧ (code = 0 ↔ done.report.verdict = .success) ∧
      u.out = done.report.toJson.indented ++ "\n" ∧
      (Json.parse done.report.toJson.indented).bind Report.ofJson? = some done.report := by
  have hparse : parse ["detach", "--assume-yes", "--format", "json"] = .run (.detach true) .json := rfl
  have hjson := output_json (exposes_machine rootSetup) rfl hparse rfl subscribed
  have hdone : ((exec ((hostConsole (Machine.host rootSetup)).attempt (.detach true) .detach)
      subscribed).1.toOption.bind id).isSome = true := by decide +kernel
  generalize exec ((hostConsole (Machine.host rootSetup)).attempt (.detach true) .detach)
    subscribed = attempted at hjson hdone
  obtain ⟨_ | _ | done, t⟩ := attempted
  · cases hdone
  · cases hdone
  · obtain ⟨code, u, hrun, hcode, hout, hback⟩ := hjson.1 done t rfl
    refine ⟨done, code, u, hrun, hcode, ?_, hback⟩
    rw [hout, Text.toString_ofString]
    exact String.empty_append

end Subscription.CommandLine
