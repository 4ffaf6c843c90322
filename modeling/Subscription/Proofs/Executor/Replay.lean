import Subscription.Proofs.Catalog.Accepted
import Subscription.Proofs.Executor.Calls

/-!
The state of an executor as the replay of its calls, whatever is enabled to begin with, repetitions
included. What is enabled is told from the calls by the answers to them, across any number of changes and
wherever these break off. A change calls for services at and below the one that it starts from, and no
service is below itself; so a service is in the list as it was looked up when it comes to the call, and
what is taken out is there.
-/

namespace Subscription

namespace Handler

variable {h : Handler} {P : List Text → Call → Prop} {past xs ys : List Call} {enabled : List Text}

/-- Every call comes at a moment when a condition on the enabled services and the call holds. -/
def Throughout (h : Handler) (P : List Text → Call → Prop) (past : List Call) (enabled : List Text)
    (calls : List Call) : Prop :=
  ∀ before call after, calls = before ++ call :: after → P (h.replay past enabled before) call

theorem throughout_nil : h.Throughout P past enabled [] := by
  intro before call after hnil
  simp at hnil

theorem throughout_single {call : Call} (hcall : P enabled call) :
    h.Throughout P past enabled [call] := by
  intro before d after hsplit
  obtain ⟨rfl, hsplit⟩ | ⟨_, _, hnil⟩ := List.singleton_eq_append_iff.mp hsplit
  · cases hsplit
    exact hcall

theorem Throughout.append (hx : h.Throughout P past enabled xs)
    (hy : h.Throughout P (past ++ xs) (h.replay past enabled xs) ys) :
    h.Throughout P past enabled (xs ++ ys) := by
  intro before call after hsplit
  rcases List.append_eq_append_iff.mp hsplit with ⟨more, rfl, hys⟩ | ⟨rest, hxs, hrest⟩
  · rw [replay_append]
    exact hy more call after hys
  · cases rest with
    | nil =>
      rw [List.append_nil] at hxs
      rw [← hxs]
      exact hy [] call after hrest.symm
    | cons d rest =>
      obtain rfl := (List.cons.inj hrest).1
      exact hx before call rest hxs

theorem mem_effect_iff {call : Call} {n : Text} (hne : n ≠ call.service.name) :
    n ∈ h.effect past call enabled ↔ n ∈ enabled := by
  unfold effect
  split
  · cases call.action <;> simp [Executor.applyChange, hne]
  all_goals exact Iff.rfl

theorem mem_replay_iff {calls : List Call} {n : Text} (hne : ∀ call ∈ calls, n ≠ call.service.name) :
    n ∈ h.replay past enabled calls ↔ n ∈ enabled := by
  induction calls generalizing past enabled with
  | nil => exact Iff.rfl
  | cons call calls ih =>
    rw [replay, ih fun d hd => hne d (List.mem_cons_of_mem call hd)]
    exact mem_effect_iff (hne call List.mem_cons_self)

end Handler

namespace Executor

variable {x : Setting} {action : ServiceAction} {scope scope' : Text → Prop} {who : Text}
  {p q r : Progress} {xs ys : List Call}

/-! ### Calls that recount what is enabled -/

/-- Some calls recount how the list of enabled services has changed, and each was made for a service
that was there to be changed. -/
structure Recounts (h : Handler) (new : List Call) (p q : Progress) : Prop where
  calls : q.calls = p.calls ++ new
  enabled : q.enabled = h.replay p.calls p.enabled new
  pending : h.Throughout (fun enabled call => pending call.action enabled call.service.name = true)
    p.calls p.enabled new

theorem recounts_nil {h : Handler} (hcalls : q.calls = p.calls) (henabled : q.enabled = p.enabled) :
    Recounts h [] p q where
  calls := by rw [hcalls, List.append_nil]
  enabled := henabled
  pending := Handler.throughout_nil

theorem Recounts.trans {h : Handler} (hp : Recounts h xs p q) (hq : Recounts h ys q r) :
    Recounts h (xs ++ ys) p r where
  calls := by rw [hq.calls, hp.calls, List.append_assoc]
  enabled := by rw [hq.enabled, hp.calls, hp.enabled, Handler.replay_append]
  pending := hp.pending.append (by simpa only [hp.calls, hp.enabled] using hq.pending)

def Within (x : Setting) (scope : Text → Prop) (p q : Progress) : Prop :=
  ∃ new, Recounts x.handler new p q ∧ ∀ call ∈ new, scope call.service.name

theorem Within.of_eq (hcalls : q.calls = p.calls) (henabled : q.enabled = p.enabled) :
    Within x scope p q :=
  ⟨[], recounts_nil hcalls henabled, nofun⟩

theorem cumulative_within : Cumulative (Within x scope) where
  refl _ := .of_eq rfl rfl
  trans := by
    rintro p q r ⟨new, hnew, hscope⟩ ⟨more, hmore, hscope'⟩
    exact ⟨new ++ more, hnew.trans hmore, List.forall_mem_append.mpr ⟨hscope, hscope'⟩⟩

theorem Within.mono (h : Within x scope p q) (hs : ∀ n, scope n → scope' n) : Within x scope' p q := by
  obtain ⟨new, hnew, hscope⟩ := h
  exact ⟨new, hnew, fun call hcall => hs _ (hscope call hcall)⟩

theorem Within.pending_eq (h : Within x scope p q) {n : Text} (hn : ¬scope n) :
    pending action q.enabled n = pending action p.enabled n := by
  obtain ⟨new, hnew, hscope⟩ := h
  rw [hnew.enabled]
  refine pending_congr (Handler.mem_replay_iff fun call hcall heq => hn ?_)
  rw [heq]
  exact hscope call hcall

/-! ### One change -/

theorem within_invoke {s : Service} (inScope : scope s.name)
    (hpend : pending action p.enabled s.name = true) :
    Within x scope p (exec (invoke x action s who) p).2 := by
  have hone : x.handler.Throughout
      (fun enabled call => pending call.action enabled call.service.name = true)
      p.calls p.enabled [x.call action s] := Handler.throughout_single hpend
  refine ⟨[x.call action s], ?_, by simpa [Setting.call] using inScope⟩
  rw [exec_invoke]
  cases hreply : x.handler.respond p.calls (x.call action s) with
  | raised | failed => exact ⟨rfl, by simp [Handler.replay, Handler.effect, hreply, Progress.called,
      Progress.refused], hone⟩
  | done => exact ⟨rfl, by simp [Handler.replay, Handler.effect, hreply, Progress.changedBy], hone⟩

/-- A service that is accepted and pending is still so once what is below it has been dealt with: no
service is below itself. -/
theorem within_changeAfter (wf : x.catalog.WellFormed) {fuel : Nat} {s : Service} {others : List Text}
    (hpend : pending action p.enabled s.name = true)
    (hbelow : ∀ n ∈ others, KeepsTo (Within x (Catalog.LeadsBelow (x.catalog.before action) s.name))
      (changeAlong x action fuel who n)) :
    Within x (Catalog.LeadsTo (x.catalog.before action) s.name) p
      (exec (changeAfter x action fuel s who others) p).2 := by
  unfold changeAfter
  split
  · next first _ _ =>
    rw [exec_bind, definition]
    cases x.catalog.find? first <;> exact .of_eq rfl rfl
  · have hloop := keepsTo_firstFailure cumulative_within hbelow p
    have hself : pending action _ s.name = pending action p.enabled s.name :=
      hloop.pending_eq (wf.before_acyclic action s.name)
    have hothers := hloop.mono fun m hm => Relation.TransGen.to_reflTransGen hm
    rw [exec_bind]
    rcases hr : exec (firstFailure (changeAlong x action fuel who) others) p with ⟨f | _ | e, q⟩
    all_goals rw [hr] at hothers hself
    · exact hothers
    · exact cumulative_within.trans hothers (within_invoke .refl (hself.trans hpend))
    · exact hothers

/-- The change of a service calls for what is at and below it. -/
theorem within_changeService (wf : x.catalog.WellFormed) (fuel : Nat) :
    ∀ s : Service, x.catalog.find? s.name = some s →
      KeepsTo (Within x (Catalog.LeadsTo (x.catalog.before action) s.name))
        (changeService x action fuel s who) := by
  induction fuel with
  | zero =>
    intro s _ p
    cases action <;> exact .of_eq rfl rfl
  | succ fuel ih =>
    intro s hs p
    rw [exec_changeService hs]
    cases href : refusal? x action s p.enabled with
    | some m => exact .of_eq rfl rfl
    | none =>
      -- What is in the way is one step below the service, so all that it calls for is below as well.
      refine within_changeAfter wf (refusal?_eq_none_iff.mp href).2 fun n hn q => ?_
      have hbefore := (mem_inTheWay.mp hn).1
      obtain ⟨d, hd⟩ := Catalog.has_iff.mp (wf.has_of_mem_before hbefore)
      obtain rfl := Catalog.name_of_find? hd
      have hwarned : Within x (Catalog.LeadsBelow (x.catalog.before action) s.name) q { q with
        tally := q.tally.addWarning (.ofService who (alongMessage action d.title)) } := .of_eq rfl rfl
      rw [exec_changeAlong hd]
      exact cumulative_within.trans hwarned
        ((ih d hd _).mono fun m hm => Relation.TransGen.head' hbefore hm)

theorem within_change (wf : x.catalog.WellFormed) {n : Text} (known : x.catalog.has n) :
    KeepsTo (Within x fun _ => True) (change x action n) := by
  obtain ⟨s, hs⟩ := Catalog.has_iff.mp known
  obtain rfl := Catalog.name_of_find? hs
  intro p
  rw [exec_change hs]
  split
  · exact .of_eq rfl rfl
  · have hchange : Within x (fun _ => True) (p.forget s.name)
        (exec (changeService x action (depthBound x (p.forget s.name)) s s.name) (p.forget s.name)).2 :=
      (within_changeService wf _ s hs _).mono fun _ _ => trivial
    rcases hr : exec (changeService x action (depthBound x (p.forget s.name)) s s.name)
      (p.forget s.name) with ⟨f | _ | e, q⟩
    all_goals
      rw [hr] at hchange
      exact cumulative_within.trans (q := q) (cumulative_within.trans (q := p.forget s.name)
        (.of_eq rfl rfl) hchange) (.of_eq rfl rfl)

/-! ### Any number of changes -/

/-- Changes that are asked of one executor in turn. One that breaks off does not keep the next from being
asked. -/
def changeInTurn (x : Setting) (changes : List (ServiceAction × Text)) (p : Progress) : Progress :=
  changes.foldl (fun p c => (exec (change x c.1 c.2) p).2) p

/-- The calls between two moments recount what is enabled, and what was replied to them was heard. -/
def Explains (x : Setting) (p q : Progress) : Prop :=
  ∃ new, Recounts x.handler new p q ∧ x.handler.Heard p.calls new p.tally q.tally

theorem cumulative_explains : Cumulative (Explains x) where
  refl _ := ⟨[], recounts_nil rfl rfl, .of_eq rfl rfl⟩
  trans := by
    rintro p q r ⟨new, hnew, hheard⟩ ⟨more, hmore, hheard'⟩
    rw [hnew.calls] at hheard'
    exact ⟨new ++ more, hnew.trans hmore, hheard.trans hheard'⟩

theorem explains_change (wf : x.catalog.WellFormed) {n : Text} (known : x.catalog.has n) :
    KeepsTo (Explains x) (change x action n) := by
  intro p
  obtain ⟨new, hrecounts, -⟩ : Within x (fun _ => True) p (exec (change x action n) p).2 :=
    within_change wf known p
  obtain ⟨heard, hcalls, hheard⟩ : Hears x.handler p _ := pervasive_hears.change known p
  rw [hrecounts.calls, List.append_cancel_left_eq] at hcalls
  exact ⟨new, hrecounts, hcalls ▸ hheard⟩

theorem explains_changeInTurn (wf : x.catalog.WellFormed) {changes : List (ServiceAction × Text)}
    (known : ∀ c ∈ changes, x.catalog.has c.2) (p : Progress) :
    Explains x p (changeInTurn x changes p) := by
  induction changes generalizing p with
  | nil => exact cumulative_explains.refl p
  | cons c changes ih =>
    have hfirst : Explains x p (exec (change x c.1 c.2) p).2 :=
      explains_change wf (known c List.mem_cons_self) p
    exact cumulative_explains.trans hfirst (ih (fun d hd => known d (List.mem_cons_of_mem c hd)) _)

/-- Whatever is enabled at first, with names of the catalog and however the handler replies, the state after
any number of changes is the one at first, but for the enabled services. These are what the calls have made
of them: no service is taken out that is not there. A reboot is needed when a reply has asked for it, and
the warnings hold the notices of all replies in their order. -/
theorem changeInTurn_replays {document : Json} {ctx : Context}
    (accepted : Catalog.ofDocument document = .ok ctx.catalog) (a : Attachment) (assumeYes : Bool)
    (past : List Call) {changes : List (ServiceAction × Text)}
    (known : ∀ c ∈ changes, ctx.catalog.has c.2) :
    let q := changeInTurn (ctx.setting a assumeYes) changes (start past a.enabled)
    ∃ new, q.calls = past ++ new ∧
      a.after q = { a with enabled := ctx.handler.replay past a.enabled new } ∧
      (∀ before call after, new = before ++ call :: after → call.action = .disable →
        call.service.name ∈ ctx.handler.replay past a.enabled before) ∧
      (q.tally.report.needsReboot = true ↔ ctx.handler.AsksReboot past new) ∧
      Interspersed (ctx.handler.notices past new) q.tally.report.warnings := by
  intro q
  have wf : (ctx.setting a assumeYes).catalog.WellFormed := Catalog.wellFormed_of_ofDocument accepted
  obtain ⟨new, hrecounts, hheard⟩ := explains_changeInTurn wf known (start past a.enabled)
  have hcalls : q.calls = past ++ new := hrecounts.calls
  have henabled : q.enabled = ctx.handler.replay past a.enabled new := hrecounts.enabled
  have hreboot : q.tally.needsReboot = true ↔ false = true ∨ ctx.handler.AsksReboot past new :=
    hheard.needsReboot
  obtain ⟨said, hsaid, hnotices⟩ := hheard.warnings
  refine ⟨new, hcalls, by rw [Attachment.after, henabled], fun before call after hnew hdisable => ?_,
    hreboot.trans (by simp), ?_⟩
  · have hpend : pending call.action (ctx.handler.replay past a.enabled before) call.service.name = true :=
      hrecounts.pending before call after hnew
    rw [hdisable] at hpend
    simpa [pending] using hpend
  · have hwarnings : q.tally.report.warnings = said := hsaid
    rw [hwarnings]
    exact hnotices

/-- A machine with `b` enabled twice over; its handler does not manage to enable `a` at once, asks for a
reboot when it does, and breaks down over the second attempt to disable `b`. -/
def hesitantContext : Context where
  catalog := Catalog.pair
  handler := .scripted fun action n =>
    match action, n with
    | .enable, "a" => [.failed "no" "no", .done true [⟨"late", "late"⟩]]
    | .disable, "b" => [.done false [], .raised "gone"]
    | _, _ => []
  series := "jammy"
  now := "2026-01-01T00:00:00.000Z"
  state := ⟨true, ["a", "b"], ["b", "z", "b"], some ⟨"k", "s", "2026-01-01T00:00:00.000Z", none⟩⟩

/-- What is asked of the hesitant machine. Disabling `b` again takes `a` along and then breaks off. -/
def hesitantChanges : List (ServiceAction × Text) :=
  [(.enable, "a"), (.disable, "b"), (.enable, "a"), (.disable, "b"), (.enable, "a")]

theorem changeInTurn_replays_hesitant :
    let q := changeInTurn (hesitantContext.setting hesitantContext.state true) hesitantChanges
      (start [] hesitantContext.state.enabled)
    ∃ new, q.calls = [] ++ new ∧
      hesitantContext.state.after q = { hesitantContext.state with
        enabled := hesitantContext.handler.replay [] hesitantContext.state.enabled new } ∧
      (∀ before call after, new = before ++ call :: after → call.action = .disable →
        call.service.name ∈ hesitantContext.handler.replay [] hesitantContext.state.enabled before) ∧
      (q.tally.report.needsReboot = true ↔ hesitantContext.handler.AsksReboot [] new) ∧
      Interspersed (hesitantContext.handler.notices [] new) q.tally.report.warnings :=
  changeInTurn_replays Catalog.ofDocument_pair hesitantContext.state true [] (by decide)

example : (changeInTurn (hesitantContext.setting hesitantContext.state true) hesitantChanges
    (start [] hesitantContext.state.enabled)).enabled = ["z", "b", "a"] := by decide

end Executor

end Subscription
