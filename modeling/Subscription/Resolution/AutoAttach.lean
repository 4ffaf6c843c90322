import Subscription.Resolution.Lifecycle

/-!
Attaching a cloud instance by the token of its image. A machine that is attached on another instance
is detached first. Then either the default services are enabled, or those that were asked for, in
rounds: as long as nothing but the handler stands in the way, what failed is tried again, up to a
number of rounds.

The operation has two halves, between which the contract behind the token is looked up: `arrive`
ends with the token to look up, unless there is nothing to attach, and `enrol` goes on from there.
-/

namespace Subscription

/-- What is to be enabled on an instance. -/
structure AutoAttachOptions where
  /-- Services to enable instead of the default ones. -/
  enable : List Text
  enableBeta : List Text
  /-- The number of rounds, three unless given. -/
  retries : Option Number

namespace AutoAttach

structure Arrival where
  token : InstanceToken
  /-- The attachment so far, when it is no longer the one at the start. -/
  detached : Option Attachment
  tally : Tally

/-- The first half: whether there is an instance to attach, and the way free of an older
subscription. -/
def arrive (ctx : Context) : Option InstanceToken → Resolving (Resolution ⊕ Arrival)
  | none =>
    return .inl (.blocked
      (if ctx.state.attached then .alreadyAttached ctx.state.contractName
        else .autoAttachUnsupported))
  | some token => do
    if !ctx.state.attached then
      return .inr ⟨token, none, .empty⟩
    else if ctx.state.contract.bind (·.instanceId) = some token.instanceId then
      return .inl (.blocked (.sameInstance token.instanceId))
    else
      let detached ← resolveDetach ctx
      match detached.report.verdict with
      | .failure => return .inl { Resolution.blocked .detachFailed with next := detached.next }
      | .success =>
        return .inr ⟨token, detached.next, Tally.empty.addWarning (.ofSystem .reattaching)⟩

def limit (retries : Option Number) : Number :=
  let n := retries.getD 3
  match n.ceil with
  | some k => if k ≤ 1 then 1 else n
  | none => n

/-- The rounds that a limit allows. No finite limit allows as many as an infinite one. -/
def roundCount (limit : Number) : Nat :=
  limit.ceil.getD (Nat.pow 2 1024)

def enableUnsettled (settled : List Text) (x : Executor.Setting) :
    List Text → Executor.Run Unit
  | [] => pure ()
  | n :: ns => do
    if n ∈ settled then Executor.record (·.skip n) else Executor.change x .enable n
    enableUnsettled settled x ns

/-- Whether another round may help: nothing is unknown, and the handler is behind all failures. -/
def retryable (p : Partition) (done : Executor.Progress) : Bool :=
  let failed := done.tally.withOutcome .failure
  p.unknown.isEmpty && !failed.isEmpty && failed.all (· ∈ done.handlerFailed)

def closingErrors (p : Partition) (limit : Number) (done : Executor.Progress) : List Message :=
  (if p.unknown.isEmpty then [] else [.unknownServices "enable" p.unknown]) ++
    if retryable p done then [.autoAttachIncomplete limit] else []

def conclude (p : Partition) (limit : Number) (a : Attachment) (tally : Tally)
    (done : Executor.Progress) : Resolution :=
  let tally := (closingErrors p limit done).foldl (fun t m => t.addError (.ofSystem m))
    (tally.absorb done.tally true)
  ⟨tally.report, some (a.after done)⟩

/-- A round and as many more as help, `left` at most. -/
def rounds (ctx : Context) (p : Partition) (limit : Number) :
    Nat → Attachment → Tally → List Text → Resolving Resolution
  | 0, a, tally, settled => do
    let done ← ctx.session a true (enableUnsettled settled · p.known)
    return conclude p limit a tally done
  | left + 1, a, tally, settled => do
    let done ← ctx.session a true (enableUnsettled settled · p.known)
    if retryable p done then
      rounds ctx p limit left (a.after done) (tally.absorb done.tally false)
        (settled ++ done.tally.withOutcome .success)
    else return conclude p limit a tally done

/-- The second half: attaches the machine to the contract and enables what is wanted. -/
def enrol (ctx : Context) (opts : AutoAttachOptions) (arrival : Arrival) :
    Option Contract → Resolving Resolution
  | none => return ⟨(arrival.tally.addError (.ofSystem .invalidToken)).report, arrival.detached⟩
  | some contract => do
    let a := ctx.freshAttachment contract arrival.token.token (some arrival.token.instanceId)
    if opts.enable.isEmpty && opts.enableBeta.isEmpty then
      let done ← ctx.session a true Executor.enableDefaults
      return ⟨(arrival.tally.absorb done.tally true).report, some (a.after done)⟩
    else
      match opts.enable.filter fun n => (ctx.catalog.find? n).any (·.isBeta) with
      | [] =>
        let p := ctx.catalog.partition true (dedupe (opts.enable ++ opts.enableBeta))
        let limit := limit opts.retries
        rounds ctx p limit (roundCount limit - 1) a arrival.tally []
      | beta =>
        return ⟨(arrival.tally.addError (.ofSystem (.betaServices beta))).report, some a⟩

end AutoAttach

def resolveAutoAttach (ctx : Context) (opts : AutoAttachOptions) (token : Option InstanceToken)
    (contracts : Text → Except Fault (Option Contract)) : Resolving Resolution := do
  match ← AutoAttach.arrive ctx token with
  | .inl r => return r
  | .inr arrival =>
    let contract ← contracts arrival.token.token
    AutoAttach.enrol ctx opts arrival contract

end Subscription
