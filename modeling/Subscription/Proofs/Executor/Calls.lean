import Subscription.Proofs.Executor.Replies
import Subscription.Proofs.Executor.Turns

/-!
The calls of a session, seen from outside. What is enabled can be told from the calls and the answers to
them; `replay` does that. A call is allowed when nothing in the list of that moment stands against it.
The list that is told from the calls and the executor's own list hold the same services of the catalog
at all times, so every call that the executor is ready for is allowed.
-/

namespace Subscription

namespace Handler

def effect (h : Handler) (past : List Call) (call : Call) (enabled : List Text) : List Text :=
  match h.respond past call with
  | .done .. => Executor.applyChange call.action call.service.name enabled
  | .failed .. | .raised _ => enabled

def replay (h : Handler) : List Call → List Text → List Call → List Text
  | _, enabled, [] => enabled
  | past, enabled, call :: calls => h.replay (past ++ [call]) (h.effect past call enabled) calls

theorem replay_append (h : Handler) (past : List Call) (enabled : List Text) (xs ys : List Call) :
    h.replay past enabled (xs ++ ys) = h.replay (past ++ xs) (h.replay past enabled xs) ys := by
  induction xs generalizing past enabled with
  | nil => simp [replay]
  | cons call xs ih => simp [replay, ih]

end Handler

namespace Catalog

/-- When the handler may be called: for a service of the catalog that is granted, can run on the series
and has all that it requires, to enable it; for one that no enabled service requires, to disable it. -/
inductive Allows (c : Catalog) (series : Text) (granted enabled : List Text) : Call → Prop
  | enable {s : Service} {assumeYes : Bool} (known : c.find? s.name = some s)
      (entitled : s.name ∈ granted) (available : c.isAvailable s.name series = true)
      (new : s.name ∉ enabled) (ready : ∀ r ∈ s.requiredServices, r ∈ enabled) :
      Allows c series granted enabled ⟨.enable, s, series, assumeYes⟩
  | disable {s : Service} {assumeYes : Bool} (known : c.find? s.name = some s)
      (there : s.name ∈ enabled) (unneeded : ∀ d ∈ c.dependentsOf s.name, d ∉ enabled) :
      Allows c series granted enabled ⟨.disable, s, series, assumeYes⟩

/-- Calls each of which is allowed in the list that the calls before it have left. -/
def SafeCalls (c : Catalog) (h : Handler) (series : Text) (granted : List Text) :
    List Call → List Text → List Call → Prop
  | _, _, [] => True
  | past, enabled, call :: calls => c.Allows series granted enabled call ∧
      SafeCalls c h series granted (past ++ [call]) (h.effect past call enabled) calls

theorem safeCalls_append {c : Catalog} {h : Handler} {series : Text} {granted enabled : List Text}
    {past xs ys : List Call} :
    c.SafeCalls h series granted past enabled (xs ++ ys) ↔
      c.SafeCalls h series granted past enabled xs ∧
        c.SafeCalls h series granted (past ++ xs) (h.replay past enabled xs) ys := by
  induction xs generalizing past enabled with
  | nil => simp [SafeCalls, Handler.replay]
  | cons call xs ih => simp [SafeCalls, Handler.replay, ih, and_assoc]

/-- A list of names without repeats that holds the same services of the catalog as another list. -/
structure Tracks (c : Catalog) (view enabled : List Text) : Prop where
  nodup : view.Nodup
  same : ∀ n, c.has n → (n ∈ view ↔ n ∈ enabled)

theorem tracks_self {c : Catalog} {enabled : List Text} (h : enabled.Nodup) :
    c.Tracks enabled enabled :=
  ⟨h, fun _ _ => Iff.rfl⟩

end Catalog

namespace Executor

variable {x : Setting} {action : ServiceAction} {scope scope' : Text → Prop} {who : Text}
  {p q r : Progress} {view : List Text}

/-! ### What is told from the calls -/

/-- A move leaves the calls and the list alone, or is a call that the executor is ready for. -/
theorem Move.call (h : Move x action p q) :
    (q.calls = p.calls ∧ q.enabled = p.enabled) ∨
      ∃ s, Ready x action s p.enabled ∧ q.calls = p.calls ++ [x.call action s] ∧
        q.enabled = x.handler.effect p.calls (x.call action s) p.enabled := by
  cases h with
  | noted calls enabled _ => exact Or.inl ⟨calls, enabled⟩
  | step hstep =>
    cases hstep with
    | warned m => exact Or.inl ⟨rfl, rfl⟩
    | raised ready _ reply => exact Or.inr ⟨_, ready, rfl, by simp [Handler.effect, reply,
        Progress.called]⟩
    | refused ready _ reply => exact Or.inr ⟨_, ready, rfl, by simp [Handler.effect, reply,
        Progress.refused, Progress.called]⟩
    | changed ready _ reply => exact Or.inr ⟨_, ready, rfl, by simp [Handler.effect, reply,
        Progress.changedBy]⟩

theorem pending_congr {enabled : List Text} {n : Text} (h : n ∈ view ↔ n ∈ enabled) :
    pending action view n = pending action enabled n := by
  cases action <;> simp [pending, h]

theorem mem_congr_of_pending {enabled : List Text} {n : Text}
    (h : pending action view n = pending action enabled n) : n ∈ view ↔ n ∈ enabled := by
  cases action
  · simpa [pending, not_iff_not] using h
  · simpa [pending] using h

/-- What is allowed by one list is allowed by any other with the same services. -/
theorem Ready.allows (wf : x.catalog.WellFormed) {granted : List Text}
    (htracks : x.catalog.Tracks view p.enabled) (hgranted : action = .enable → x.entitlements = granted)
    {s : Service} (ready : Ready x action s p.enabled) :
    x.catalog.Allows x.series granted view (x.call action s) := by
  have known := ready.known
  have hself := htracks.same s.name (Catalog.has_of_find? known)
  have hpend := ready.pending
  have hbefore : ∀ n ∈ x.catalog.before action s.name, (n ∈ view ↔ n ∈ p.enabled) := fun n hn =>
    htracks.same n (wf.has_of_mem_before hn)
  cases action with
  | enable =>
    obtain ⟨hentitled, havailable⟩ :=
      obstacle?_enable_eq_none_iff.mp (refusal?_eq_none_iff.mp ready.accepted).1
    refine .enable known (hgranted rfl ▸ hentitled) havailable ?_ fun n hn => ?_
    · rw [hself]
      simpa [Executor.pending] using hpend
    · have hn : n ∈ x.catalog.requirementsOf s.name := by
        rwa [Catalog.requirementsOf_of_find? known]
      rw [hbefore n hn]
      simpa [Executor.pending] using ready.clear n hn
  | disable =>
    refine .disable known ?_ fun n hn => ?_
    · rw [hself]
      simpa [Executor.pending] using hpend
    · rw [hbefore n hn]
      simpa [Executor.pending] using ready.clear n hn

/-- A call changes both lists in the same way. -/
theorem tracks_effect (hp : p.enabled.Nodup) (htracks : x.catalog.Tracks view p.enabled) {s : Service}
    (ready : Ready x action s p.enabled) (past : List Call) :
    x.catalog.Tracks (x.handler.effect past (x.call action s) view)
      (x.handler.effect past (x.call action s) p.enabled) := by
  have hpend : pending action view s.name = true := by
    rw [pending_congr (htracks.same s.name (Catalog.has_of_find? ready.known))]
    exact ready.pending
  unfold Handler.effect
  split
  · refine ⟨nodup_applyChange htracks.nodup hpend, fun n hn => ?_⟩
    have hsame : pending action (applyChange action s.name view) n =
        pending action (applyChange action s.name p.enabled) n := by
      rw [pending_applyChange htracks.nodup, pending_applyChange hp,
        pending_congr (htracks.same n hn)]
    exact mem_congr_of_pending hsame
  all_goals exact htracks

/-- All calls of a session are allowed, and the list that is told from them goes along with the list of
the executor. -/
theorem Moves.safeCalls (wf : x.catalog.WellFormed) {granted : List Text}
    (hgranted : action = .enable → x.entitlements = granted) (h : Moves x action p q)
    (hp : p.enabled.Nodup) (htracks : x.catalog.Tracks view p.enabled) :
    ∃ new, q.calls = p.calls ++ new ∧
      x.catalog.SafeCalls x.handler x.series granted p.calls view new ∧
      x.catalog.Tracks (x.handler.replay p.calls view new) q.enabled := by
  induction h with
  | refl => exact ⟨[], by simp, trivial, htracks⟩
  | tail hmoves hmove ih =>
    obtain ⟨new, hcalls, hsafe, hview⟩ := ih
    rcases hmove.call with ⟨hsame, henabled⟩ | ⟨s, ready, hcall, henabled⟩
    · exact ⟨new, hsame.trans hcalls, hsafe, by rwa [henabled]⟩
    · refine ⟨new ++ [x.call action s], ?_, Catalog.safeCalls_append.mpr ⟨hsafe, ?_, trivial⟩, ?_⟩
      · rw [hcall, hcalls, List.append_assoc]
      · exact ready.allows wf hview hgranted
      · rw [Handler.replay_append, henabled, ← hcalls]
        exact tracks_effect (Moves.nodup hmoves hp) hview ready _

/-! ### Which services are called for -/

def Called (action : ServiceAction) (scope : Text → Prop) (p q : Progress) : Prop :=
  ∃ new, q.calls = p.calls ++ new ∧ ∀ call ∈ new, call.action = action ∧ scope call.service.name

namespace Called

theorem of_calls_eq (h : q.calls = p.calls) : Called action scope p q :=
  ⟨[], by simp [h], by simp⟩

theorem mono (h : Called action scope p q) (hs : ∀ n, scope n → scope' n) :
    Called action scope' p q := by
  obtain ⟨new, hcalls, hnew⟩ := h
  exact ⟨new, hcalls, fun call hcall => ⟨(hnew call hcall).1, hs _ (hnew call hcall).2⟩⟩

theorem trans (h : Called action scope p q) (h' : Called action scope q r) :
    Called action scope p r := by
  obtain ⟨new, hcalls, hnew⟩ := h
  obtain ⟨more, hcalls', hmore⟩ := h'
  refine ⟨new ++ more, by rw [hcalls', hcalls, List.append_assoc], fun call hcall => ?_⟩
  exact (List.mem_append.mp hcall).elim (hnew call) (hmore call)

theorem of_steps (h : Steps x action scope who p q) : Called action scope p q := by
  induction h with
  | refl => exact of_calls_eq rfl
  | tail _ hstep ih =>
    refine ih.trans ?_
    cases hstep with
    | warned m => exact of_calls_eq rfl
    | raised _ inScope _ => exact ⟨[x.call action _], rfl, by simpa [Setting.call] using inScope⟩
    | refused _ inScope _ => exact ⟨[x.call action _], rfl, by simpa [Setting.call] using inScope⟩
    | changed _ inScope _ => exact ⟨[x.call action _], rfl, by simpa [Setting.call] using inScope⟩

end Called

theorem pervasive_called : Pervasive x action (Called action fun _ => True) where
  refl _ := .of_calls_eq rfl
  trans := Called.trans
  noted h := .of_calls_eq h.calls
  warned _ _ _ := .of_calls_eq rfl
  invoked who s p := by
    have hone : ∀ call ∈ [x.call action s], call.action = action ∧ True := by simp [Setting.call]
    rw [exec_invoke]
    split <;> exact ⟨[x.call action s], rfl, hone⟩

/-- The services that the change of a name may call for: all that it leads to, with consent to change
them along, and otherwise none but the one of that name. -/
def Setting.Reaches (x : Setting) (action : ServiceAction) (name n : Text) : Prop :=
  if x.assumeYes then Catalog.LeadsTo (x.catalog.before action) name n else n = name

/-- Without consent to change other services along, a change is one call or none. -/
theorem steps_changeService_alone (no : x.assumeYes = false) {s : Service}
    (hs : x.catalog.find? s.name = some s) (fuel : Nat) (hp : p.enabled.Nodup) :
    Steps x action (· = s.name) who p (exec (changeService x action fuel s who) p).2 := by
  cases fuel with
  | zero => cases action <;> exact .refl
  | succ fuel =>
    rw [exec_changeService hs]
    cases href : refusal? x action s p.enabled with
    | some m => exact .refl
    | none =>
      simp only [changeAfter, no]
      cases hway : inTheWay x action s p.enabled with
      | cons first others =>
        simp only [List.head?_cons, exec_bind, definition]
        cases x.catalog.find? first <;> exact .refl
      | nil =>
        have ready := ready_of_inTheWay_eq_nil hs href hway
        have hinvoke : Settles x action (· = s.name) who [s.name] p (exec (invoke x action s who) p) :=
          settles_invoke ready rfl hp
        simp only [List.head?_nil, firstFailure, exec_bind, exec_pure]
        exact hinvoke.steps

theorem called_change (wf : x.catalog.WellFormed) {name : Text} (known : x.catalog.has name)
    (hp : p.enabled.Nodup) :
    Called action (x.Reaches action name) p (exec (change x action name) p).2 := by
  obtain ⟨s, hs⟩ := Catalog.has_iff.mp known
  have hrecorded : ∀ result : Except Fault (Option Entry) × Progress,
      Called action (x.Reaches action name) p result.2 →
      Called action (x.Reaches action name) p (recorded name result).2 := by
    rintro ⟨_ | _ | _, q⟩ h <;> exact h
  rw [exec_change hs]
  split
  · exact .of_calls_eq rfl
  · obtain rfl := Catalog.name_of_find? hs
    refine hrecorded _ (Called.trans (q := p.forget s.name) (.of_calls_eq rfl) ?_)
    unfold Setting.Reaches
    split
    · have hchanges : Changes x action s.name s.name (p.forget s.name) _ := changes_changeService wf
        (depthBound x (p.forget s.name)) s _ hs (height_lt_depthBound x action s.name _) hp
      exact .of_steps hchanges.steps
    · next no => exact .of_steps (steps_changeService_alone (by simpa using no) hs _ hp)

theorem called_changeAll (wf : x.catalog.WellFormed) {names : List Text}
    (known : ∀ n ∈ names, x.catalog.has n) (hp : p.enabled.Nodup) :
    Called action (fun n => ∃ m ∈ names, x.Reaches action m n) p
      (exec (changeAll x action names) p).2 := by
  induction names generalizing p with
  | nil => exact .of_calls_eq rfl
  | cons n names ih =>
    have hn := known n List.mem_cons_self
    have hturn : Turn x action n p (exec (change x action n) p) := turn_change wf hn hp
    have hnodup := hturn.moves.nodup hp
    have hone : Called action (fun m => ∃ k ∈ n :: names, x.Reaches action k m) p
        (exec (change x action n) p).2 :=
      (called_change wf hn hp).mono fun m hm => ⟨n, List.mem_cons_self, hm⟩
    rw [changeAll, exec_bind]
    rcases hr : exec (change x action n) p with ⟨f | _, q⟩
    · rw [hr] at hone
      exact hone
    · rw [hr] at hone hnodup
      refine hone.trans ((ih (fun m hm => known m (List.mem_cons_of_mem n hm)) hnodup).mono ?_)
      rintro m ⟨k, hk, hm⟩
      exact ⟨k, List.mem_cons_of_mem n hk, hm⟩

theorem called_runBatch (wf : x.catalog.WellFormed) {names : Partition}
    (known : ∀ n ∈ names.known, x.catalog.has n) (hp : p.enabled.Nodup) :
    Called action (fun n => ∃ m ∈ names.known, x.Reaches action m n) p
      (exec (runBatch x action names) p).2 := by
  have hall : Called action (fun n => ∃ m ∈ names.known, x.Reaches action m n) p _ :=
    called_changeAll wf known hp
  rw [runBatch, exec_bind]
  rcases hr : exec (changeAll x action names.known) p with ⟨f | _, q⟩
  · rw [hr] at hall
    exact hall
  · rw [hr] at hall
    refine hall.trans (.of_calls_eq ?_)
    dsimp only
    split <;> rfl

end Executor

end Subscription
